import MarkCompact.Proofs.BlockOffsets
import MarkCompact.Proofs.Packing

/-!
# Forwarding object starts

An object start goes as many words behind the destination of its region as there are live words in
front of it in the region.  That is what the scan counts, and what the block table and a shorter
count add up to, wherever the region goes: the two agree even where the result would be no address,
and they do not tell the bytes of a word apart.

Main statements: `scanForward_start` and `forwardStart_start`.
-/

namespace MarkCompact

variable {objs : List Span} {m : MarkBitmap} {o : Span} {k r w x : ℕ}

/-! ## First objects of blocks -/

/-- The first object start of a block at or before an object start. -/
lemma exists_firstOfBlock {B : ℕ} (hx : Starts objs x) :
    ∃ y, y ≤ x ∧ y / B = x / B ∧ FirstOfBlock objs B y := by
  classical
  have hex : ∃ y, x / B * B ≤ y ∧ Starts objs y := ⟨x, Nat.div_mul_le_self x B, hx⟩
  obtain ⟨h1, h2⟩ := Nat.find_spec hex
  have hle : Nat.find hex ≤ x := Nat.find_min' hex ⟨Nat.div_mul_le_self x B, hx⟩
  have hblock : Nat.find hex / B = x / B := by
    rcases Nat.eq_zero_or_pos B with rfl | hB
    · simp
    · exact le_antisymm (Nat.div_le_div_right hle) ((Nat.le_div_iff_mul_le hB).2 h1)
  refine ⟨Nat.find hex, hle, hblock, h2, fun y hy1 hy2 hy => ?_⟩
  rw [hblock] at hy1
  exact Nat.find_min hex hy2 ⟨hy1, hy⟩

/-- The words from a word that no object starts at, up to the next start, add nothing behind the
object that reaches across. -/
lemma liveBelow_reach_eq (hsep : Separate objs) (hb : Boundary objs x) (hle : w ≤ x)
    (hnone : ∀ y, w ≤ y → y < x → ¬Starts objs y) :
    reach objs w ≤ x ∧ liveBelow objs (reach objs w) = liveBelow objs x := by
  have hreach := reach_le hsep hle hb
  have hlow := le_reach hsep w
  exact ⟨hreach, (liveBelow_of_dead hreach
    (dead_of_boundary (boundary_reach hsep w) fun y h1 h2 => hnone y (by omega) h2)).symm⟩

namespace RegionTable

variable {t : RegionTable}

/-- A word moves with its whole region, or with the partial object of the region. -/
lemma Laid.forwardWhole?_addr (ht : t.Laid) (hw : w < t.covered.words)
    (hr : r = w / t.geometry.regionWords) :
    t.forwardWhole? (t.covered.addr w) = if (t.regions.get r).dataWords = t.geometry.regionWords
        ∨ w % t.geometry.regionWords < (t.regions.get r).partialWords
      then (Word.add (t.regions.get r).destination
        (bytesPerWord * (w % t.geometry.regionWords))).map some
      else pure none := by
  rw [forwardWhole?, ht.regionOf_addr hw.le, ok_bind, ← hr,
    Laid.region_eq (hr ▸ ht.region_lt hw), ok_bind, ht.offsetInRegion_addr hw.le, ok_bind]
  cases Word.add (t.regions.get r).destination (bytesPerWord * (w % t.geometry.regionWords)) <;> rfl

/-- The new address of an object start, once the blocks of its region are recorded. -/
def forwardFromBlock (t : RegionTable) (m : MarkBitmap) (destination addr : ℕ) :
    Except Fault (ℕ × RegionTable) := do
  let b ← t.blockOf addr
  let entry ← t.block b
  let blockStart ← t.blockAlignDown addr
  let live ← m.liveWords blockStart addr
  let result ← Word.add destination (Word.bytes (entry.offset + live))
  let scanned ← t.scanForward m addr
  if result ≠ scanned then throw (.forwardingDisagrees addr)
  pure (result, t)

lemma forwardStart_eq_fromBlock (t : RegionTable) (m : MarkBitmap) (addr : ℕ) :
    t.forwardStart m addr = (do
    let r ← t.regionOf addr
    let a ← t.region r
    (if a.blocksFilled then pure t else t.fillBlocks m r) >>= fun t =>
      t.forwardFromBlock m a.destination addr) := by
  refine congrArg (t.regionOf addr
    >>= ·) (funext fun r => congrArg (t.region r >>= ·) (funext fun a => ?_))
  dsimp only
  split <;> rfl

section

variable (ht : t.Laid) (hm : m.Marks objs) (hcovered : m.covered = t.covered) (ho : o ∈ objs)
  (hr : r = o.start / t.geometry.regionWords)
include ht hm hcovered ho hr

omit ht hr in
/-- The live words in front of an object start, counted from any word. -/
lemma liveWords_start {a : ℕ} (hk : k < 8) (hle : a ≤ o.start) :
    m.liveWords (t.covered.addr a) (t.covered.addr o.start + k)
      = .ok (liveBelow objs o.start - liveBelow objs (reach objs a)) := by
  have hlt := hm.start_lt ho
  have hb := hm.separate.boundary_start ho
  rw [← hcovered]
  refine hm.liveWords_of_bits (hm.bitOf_addr (by omega)) ?_ (reach_le hm.separate hle hb) hb hlt.le
  rw [hm.bitOf_byte hlt hk, hm.bitOf_addr hlt.le]

/-- The scan counts the live words of the region in front of the object. -/
theorem scanForward_start
    (hpartial : (t.regions.get r).partialWords = partialOf objs t.geometry.regionWords r)
    (hk : k < 8) :
    t.scanForward m (t.covered.addr o.start + k) = Word.add (t.regions.get r).destination
      (Word.bytes (liveBelow objs o.start - liveBelow objs (r * t.geometry.regionWords))) := by
  have hlt : o.start < t.covered.words := hcovered ▸ hm.start_lt ho
  obtain ⟨h1, h2⟩ := div_mul_bounds t.geometry.regionWords_pos o.start
  have hreach := reach_le hm.separate h1 (hm.separate.boundary_start ho)
  have hlow := le_reach hm.separate (o.start / t.geometry.regionWords * t.geometry.regionWords)
  have hmono := liveBelow_mono objs hreach
  have hcount :=
    liveBelow_partialOf hm.separate t.geometry.regionWords (o.start / t.geometry.regionWords)
  have heq : o.start / t.geometry.regionWords * t.geometry.regionWords
      + partialOf objs t.geometry.regionWords (o.start / t.geometry.regionWords)
      = reach objs (o.start / t.geometry.regionWords * t.geometry.regionWords) := by
    rw [partialOf]
    omega
  rw [heq] at hcount
  rw [← hr] at h1 hmono hcount
  rw [scanForward, ht.regionOf_byte hlt hk, ht.regionOf_addr hlt.le, ok_bind, ← hr,
    Laid.region_eq (hr ▸ ht.region_lt hlt), ok_bind, Laid.regionStart_eq,
    liveWords_start hm hcovered ho hk h1, ok_bind, hpartial]
  congr 2
  omega

/-- The block table gives what the scan gives. -/
lemma forwardFromBlock_start
    (hpartial : (t.regions.get r).partialWords = partialOf objs t.geometry.regionWords r)
    (hk : k < 8) (hfilled : (t.regions.get r).blocksFilled = true) (hvalid : t.BlocksValid objs r) :
    t.forwardFromBlock m (t.regions.get r).destination (t.covered.addr o.start + k)
      = (t.scanForward m (t.covered.addr o.start + k)).map (·, t) := by
  have hlt : o.start < t.covered.words := hcovered ▸ hm.start_lt ho
  obtain ⟨h1, h2⟩ := div_mul_bounds t.geometry.regionWords_pos o.start
  obtain ⟨y, hy1, hy2, hy⟩ :=
    exists_firstOfBlock (B := t.geometry.blockWords) (x := o.start) ⟨o, ho, rfl⟩
  have hstart := Nat.div_mul_le_self y t.geometry.blockWords
  have hregionStart := t.region_le_block h1
  rw [← hr, ← hy2] at hregionStart
  rw [← hr] at h1 h2
  have hoffset := hvalid hfilled y (by omega) (by omega) hy
  obtain ⟨hreach, hsame⟩ := liveBelow_reach_eq hm.separate
    (by obtain ⟨o', ho', rfl⟩ := hy.starts; exact hm.separate.boundary_start ho') hstart hy.before
  have hmono := liveBelow_mono objs hy1
  have hmono' := liveBelow_mono objs (show r * t.geometry.regionWords ≤ y by omega)
  have hcount : (t.blocks.get (y / t.geometry.blockWords)).offset
      + (liveBelow objs o.start - liveBelow objs
        (reach objs (y / t.geometry.blockWords * t.geometry.blockWords)))
      = liveBelow objs o.start - liveBelow objs (r * t.geometry.regionWords) := by
    rw [hoffset, hsame]
    omega
  rw [forwardFromBlock, ht.blockOf_byte hlt hk, ht.blockOf_addr hlt.le, ok_bind,
    block_eq (ht.block_lt hlt), ok_bind, Laid.blockAlignDown_byte t o.start hk,
    Laid.blockAlignDown_addr, ok_bind, ← hy2,
    liveWords_start hm hcovered ho hk (by omega), ok_bind, hcount,
    scanForward_start ht hm hcovered ho hr hpartial hk]
  cases Word.add (t.regions.get r).destination
      (Word.bytes (liveBelow objs o.start - liveBelow objs (r * t.geometry.regionWords))) with
  | error e => rfl
  | ok result =>
    rw [ok_bind, ok_bind, if_neg (by simp)]
    rfl

/-- The block table, filled where it is not, and the scan agree on all the bytes of an object
start. -/
theorem forwardStart_start
    (hpartial : (t.regions.get r).partialWords = partialOf objs t.geometry.regionWords r)
    (hvalid : t.BlocksValid objs r) :
    ∃ t', Refilled objs t t' ∧ ∀ k, k < 8 →
      t.forwardStart m (t.covered.addr o.start + k)
        = (t.scanForward m (t.covered.addr o.start + k)).map (·, t') := by
  have hlt : o.start < t.covered.words := hcovered ▸ hm.start_lt ho
  have hregion : r < t.geometry.regionCount := hr ▸ ht.region_lt hlt
  -- The blocks are recorded already, or recorded first.
  obtain ⟨t', hfill, hrefilled, hfilled', hvalid'⟩ : ∃ t',
      (if (t.regions.get r).blocksFilled then pure t else t.fillBlocks m r) = .ok t'
        ∧ Refilled objs t t'
        ∧ (t'.regions.get r).blocksFilled = true ∧ t'.BlocksValid objs r := by
    by_cases hdone : (t.regions.get r).blocksFilled = true
    · exact ⟨t, if_pos hdone, .refl objs t, hdone, hvalid⟩
    · obtain ⟨t', heq, hrefilled, hfilled', hvalid', -⟩ :=
        fillBlocks_eq ht hm hcovered hregion hpartial
      exact ⟨t', by rw [if_neg hdone, heq], hrefilled, hfilled', hvalid'⟩
  refine ⟨t', hrefilled, fun k hk => ?_⟩
  have ht' := hrefilled.shape.laid ht
  have hcovered' := hcovered.trans hrefilled.shape.covered.symm
  have hr' : r = o.start / t'.geometry.regionWords := by rw [hrefilled.shape.geometry]; exact hr
  have hpartial' : (t'.regions.get r).partialWords = partialOf objs t'.geometry.regionWords r := by
    rw [hrefilled.regions r, hrefilled.shape.geometry]
    exact hpartial
  have hdestination : (t'.regions.get r).destination = (t.regions.get r).destination := by
    rw [hrefilled.regions r]
  have hblock := forwardFromBlock_start ht' hm hcovered' ho hr' hpartial' hk hfilled' hvalid'
  have hscan := scanForward_start ht' hm hcovered' ho hr' hpartial' hk
  rw [hrefilled.shape.geometry, hdestination,
    ← scanForward_start ht hm hcovered ho hr hpartial hk] at hscan
  rw [hrefilled.shape.covered] at hblock hscan
  rw [forwardStart_eq_fromBlock, ht.regionOf_byte hlt hk, ht.regionOf_addr hlt.le, ok_bind, ← hr,
    Laid.region_eq hregion, ok_bind, hfill, ok_bind, ← hdestination, hblock, hscan]

end

end RegionTable

end MarkCompact
