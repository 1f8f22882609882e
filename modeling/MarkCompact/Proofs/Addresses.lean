import Mathlib.Tactic.Ring
import MarkCompact.Proofs.Marks
import MarkCompact.RegionTable.Packing

/-!
# Addresses of words, regions and blocks

A region table that is laid over its covered range (`Laid`) answers every question about the address
of a word `i` of the range with the expected quotient or remainder: region `i / W`, offset `i % W`,
block `i / B`.  The checks in those functions never fail for such addresses.

Regions are compared through their first words, `r * W`; `upTo W i` is the number of regions that
the words below `i` reach.
-/

namespace MarkCompact

@[simp] lemma ok_bind {α β : Type} (a : α) (f : α → Except Fault β) :
    (Except.ok a >>= f) = f a := rfl

/-! ## Regions by their first words -/

/-- One past the last of the regions of `W` words that the words below `i` reach. -/
def upTo (W i : ℕ) : ℕ :=
  (i + (W - 1)) / W

variable {W i j r n : ℕ}

lemma div_mul_bounds (hW : 0 < W) (i : ℕ) : i / W * W ≤ i ∧ i < i / W * W + W :=
  ⟨Nat.div_mul_le_self i W, Nat.lt_div_mul_add hW⟩

lemma div_eq_of_bounds (h1 : r * W ≤ i) (h2 : i < r * W + W) : i / W = r := by
  apply Nat.div_eq_of_lt_le
  · exact h1
  · rwa [Nat.succ_mul]

lemma div_lt_of_lt_mul (h : i < r * W) : i / W < r :=
  Nat.div_lt_of_lt_mul (Nat.mul_comm r W ▸ h)

lemma upTo_le_iff (hW : 0 < W) : upTo W i ≤ r ↔ i ≤ r * W := by
  rw [upTo, ← Nat.lt_succ_iff, Nat.div_lt_iff_lt_mul hW, Nat.succ_mul]
  omega

lemma lt_upTo_iff (hW : 0 < W) : r < upTo W i ↔ r * W < i := by
  rw [← not_le, ← not_le, upTo_le_iff hW]

lemma upTo_mul (hW : 0 < W) (r : ℕ) : upTo W (r * W) = r :=
  le_antisymm ((upTo_le_iff hW).2 (le_refl _))
    (Nat.le_of_mul_le_mul_right ((upTo_le_iff hW).1 (le_refl (upTo W (r * W)))) hW)

lemma le_upTo_mul (hW : 0 < W) (i : ℕ) : i ≤ upTo W i * W :=
  (upTo_le_iff hW).1 (le_refl _)

lemma upTo_mono (hW : 0 < W) (h : i ≤ j) : upTo W i ≤ upTo W j :=
  (upTo_le_iff hW).2 (le_trans h (le_upTo_mul hW j))

lemma div_le_upTo (W i : ℕ) : i / W ≤ upTo W i :=
  Nat.div_le_div_right (by omega)

lemma mul_le_of_le_div (h : r ≤ i / W) : r * W ≤ i :=
  le_trans (Nat.mul_le_mul_right W h) (Nat.div_mul_le_self i W)

/-! ## Tables over a covered range -/

namespace Geometry

variable (g : Geometry)

lemma shiftRight_regionLog (i : ℕ) : i >>> g.regionLog = i / g.regionWords := by
  rw [Nat.shiftRight_eq_div_pow, g.regionWords_eq, Nat.pow_eq]

lemma shiftRight_blockLog (i : ℕ) : i >>> g.blockLog = i / g.blockWords := by
  rw [Nat.shiftRight_eq_div_pow, g.blockWords_eq, Nat.pow_eq]

lemma regionBytes_pos : 0 < g.regionBytes :=
  Nat.mul_pos g.regionWords_pos (by decide)

/-- Dividing by the blocks of a region takes the region of a block. -/
lemma div_blockWords_div (i : ℕ) : i / g.blockWords / g.blocksPerRegion = i / g.regionWords := by
  rw [Nat.div_div_eq_div_mul, Nat.mul_comm, g.blocks_mul_blockWords]

end Geometry

namespace RegionTable

lemma region_eq_ok_iff {t : RegionTable} {a : Region} :
    t.region r = .ok a ↔ r < t.geometry.regionCount
    ∧ t.regions.get r = a := by
  rw [region]
  exact guard_eq_ok_iff

/-- A change that is made replaces one entry. -/
lemma update_eq_ok_iff {t t' : RegionTable} {f : Region → Except Fault Region} :
    t.update r f = .ok t'
    ↔ r < t.geometry.regionCount ∧ ∃ b, f (t.regions.get r) = .ok b ∧ t.setRegion r b = t' := by
  simp only [update, bind_eq_ok_iff, region_eq_ok_iff, pure_eq_ok_iff]
  constructor
  · rintro ⟨a, ⟨hr, rfl⟩, h⟩
    exact ⟨hr, h⟩
  · rintro ⟨hr, h⟩
    exact ⟨_, ⟨hr, rfl⟩, h⟩

/-- The table has an entry for every region and every block of its covered range, which leaves room
for one more region in the address space. -/
structure Laid (t : RegionTable) : Prop where
  covered_lt : t.covered.start + t.covered.size < wordValues
  size_eq : t.covered.size = t.geometry.coveredBytes
  room : t.covered.size + t.geometry.regionBytes < wordValues
  regionWords_lt : t.geometry.regionWords < liveLimit
  regions_size : t.regions.size = t.geometry.regionCount
  blocks_size : t.blocks.size = t.geometry.blockCount
  regions_blank : t.regions.blank = {}
  blocks_blank : t.blocks.blank = {}

/-- The tables differ in their regions and blocks only. -/
structure SameShape (t t' : RegionTable) : Prop where
  covered : t'.covered = t.covered
  geometry : t'.geometry = t.geometry
  regions_size : t'.regions.size = t.regions.size
  blocks_size : t'.blocks.size = t.blocks.size
  regions_blank : t'.regions.blank = t.regions.blank
  blocks_blank : t'.blocks.blank = t.blocks.blank

lemma SameShape.refl (t : RegionTable) : t.SameShape t :=
  ⟨rfl, rfl, rfl, rfl, rfl, rfl⟩

lemma SameShape.trans {t t' t'' : RegionTable} (h : t.SameShape t') (h' : t'.SameShape t'') :
    t.SameShape t'' :=
  ⟨h'.covered.trans h.covered, h'.geometry.trans h.geometry, h'.regions_size.trans h.regions_size,
    h'.blocks_size.trans h.blocks_size, h'.regions_blank.trans h.regions_blank,
    h'.blocks_blank.trans h.blocks_blank⟩

lemma SameShape.laid {t t' : RegionTable} (h : t.SameShape t') (ht : t.Laid) : t'.Laid where
  covered_lt := h.covered ▸ ht.covered_lt
  size_eq := by rw [h.covered, h.geometry, ht.size_eq]
  room := by rw [h.covered, h.geometry]; exact ht.room
  regionWords_lt := h.geometry ▸ ht.regionWords_lt
  regions_size := by rw [h.regions_size, h.geometry, ht.regions_size]
  blocks_size := by rw [h.blocks_size, h.geometry, ht.blocks_size]
  regions_blank := h.regions_blank.trans ht.regions_blank
  blocks_blank := h.blocks_blank.trans ht.blocks_blank

namespace SameShape

variable {t t' : RegionTable} (h : t.SameShape t')
include h

lemma wordOffset_eq (addr : ℕ) : t'.wordOffset addr = t.wordOffset addr := by
  rw [wordOffset, wordOffset, h.covered]

lemma regionOf_eq (addr : ℕ) : t'.regionOf addr = t.regionOf addr := by
  rw [regionOf, regionOf, h.wordOffset_eq, h.geometry]

lemma offsetInRegion_eq (addr : ℕ) : t'.offsetInRegion addr = t.offsetInRegion addr := by
  rw [offsetInRegion, offsetInRegion, h.wordOffset_eq, h.geometry]

lemma isAligned_eq (addr : ℕ) : t'.isAligned addr = t.isAligned addr := by
  rw [isAligned, isAligned, h.offsetInRegion_eq]

lemma regionStart_eq (r : ℕ) : t'.regionStart r = t.regionStart r := by
  rw [regionStart, regionStart, h.covered, h.geometry]

lemma regionUpTo_eq (addr : ℕ) : t'.regionUpTo addr = t.regionUpTo addr := by
  simp only [regionUpTo, alignUp, h.covered, h.geometry, h.regionOf_eq]

end SameShape

lemma sameShape_setRegion (t : RegionTable) (r : ℕ) (a : Region) : t.SameShape (t.setRegion r a) :=
  ⟨rfl, rfl, Table.size_set .., rfl, Table.blank_set .., rfl⟩

@[simp] lemma setRegion_covered (t : RegionTable) (r : ℕ) (a : Region) :
    (t.setRegion r a).covered = t.covered := rfl

@[simp] lemma setRegion_geometry (t : RegionTable) (r : ℕ) (a : Region) :
    (t.setRegion r a).geometry = t.geometry := rfl

namespace Laid

variable {t : RegionTable} {a b : Region}

lemma setRegion (h : t.Laid) (r : ℕ) (a : Region) : (t.setRegion r a).Laid :=
  (t.sameShape_setRegion r a).laid h

lemma covered_words (h : t.Laid) :
    t.covered.words = t.geometry.regionCount * t.geometry.regionWords := by
  rw [Extent.words, h.size_eq, Geometry.coveredBytes, Geometry.regionBytes, ← Nat.mul_assoc]
  exact Nat.mul_div_cancel _ (by decide)

lemma size_words (h : t.Laid) : t.covered.size = 8 * t.covered.words := by
  rw [h.covered_words, h.size_eq, Geometry.coveredBytes, Geometry.regionBytes, bytesPerWord,
    ← Nat.mul_assoc]
  exact Nat.mul_comm ..

lemma words_lt (h : t.Laid) : t.covered.words < wordValues := by
  have hsize := h.size_words
  have hlt := h.covered_lt
  omega

lemma addr_words (h : t.Laid) :
    t.covered.addr t.covered.words = t.covered.start + t.covered.size := by
  rw [Extent.addr_eq, h.size_words]

/-! ### Entries -/

/-- Behind the last region nothing is recorded. -/
lemma region_blank (ht : t.Laid) {r : ℕ} (hr : t.geometry.regionCount ≤ r) :
    t.regions.get r = {} := by
  rw [Table.get, if_neg (by rw [ht.regions_size]; omega), ht.regions_blank]

lemma region_eq {r : ℕ} (hr : r < t.geometry.regionCount) : t.region r = .ok (t.regions.get r) := by
  rw [region, if_pos hr]
  rfl

lemma update_eq {r : ℕ} {f : Region → Except Fault Region} (hr : r < t.geometry.regionCount)
    (hf : f (t.regions.get r) = .ok b) : t.update r f = .ok (t.setRegion r b) := by
  rw [update, region_eq hr, ok_bind, hf]
  rfl

lemma update_pure {r : ℕ} {g : Region → Region} (hr : r < t.geometry.regionCount) :
    (t.update r fun a => pure (g a)) = .ok (t.setRegion r (g (t.regions.get r))) :=
  update_eq hr rfl

lemma get_setRegion_self (h : t.Laid) {r : ℕ} (hr : r < t.geometry.regionCount) :
    (t.setRegion r a).regions.get r = a :=
  Table.get_set_self _ _ (h.regions_size ▸ hr)

lemma get_setRegion_of_ne {r q : ℕ} (hq : q ≠ r) :
    (t.setRegion r a).regions.get q = t.regions.get q :=
  Table.get_set_of_ne _ _ (Ne.symm hq)

lemma region_lt (h : t.Laid) {i : ℕ} (hi : i < t.covered.words) :
    i / t.geometry.regionWords < t.geometry.regionCount :=
  div_lt_of_lt_mul (h.covered_words ▸ hi)

/-! ### Words and regions -/

lemma wordOffset_addr (h : t.Laid) {i : ℕ} (hi : i ≤ t.covered.words) :
    t.wordOffset (t.covered.addr i) = .ok i := by
  rw [wordOffset, Extent.offset_addr h.covered_lt hi, ok_bind, bytesPerWord,
    Nat.mul_div_cancel_left _ (by decide)]
  rfl

lemma regionOf_addr (h : t.Laid) {i : ℕ} (hi : i ≤ t.covered.words) :
    t.regionOf (t.covered.addr i) = .ok (i / t.geometry.regionWords) := by
  rw [regionOf, h.wordOffset_addr hi, ok_bind, Geometry.shiftRight_regionLog]
  rfl

lemma offsetInRegion_addr (h : t.Laid) {i : ℕ} (hi : i ≤ t.covered.words) :
    t.offsetInRegion (t.covered.addr i) = .ok (i % t.geometry.regionWords) := by
  rw [offsetInRegion, h.wordOffset_addr hi, ok_bind]
  rfl

lemma isAligned_addr (h : t.Laid) {i : ℕ} (hi : i ≤ t.covered.words) :
    t.isAligned (t.covered.addr i) = .ok (i % t.geometry.regionWords == 0) := by
  rw [isAligned, h.offsetInRegion_addr hi, ok_bind]
  rfl

lemma regionStart_eq (t : RegionTable) (r : ℕ) :
    t.regionStart r = t.covered.addr (r * t.geometry.regionWords) := by
  rw [regionStart, Geometry.regionBytes, Extent.addr, bytesPerWord]
  ring

lemma regionStart?_eq {r : ℕ} (hr : r ≤ t.geometry.regionCount) :
    t.regionStart? r = .ok (t.covered.addr (r * t.geometry.regionWords)) := by
  rw [regionStart?, if_pos hr, regionStart_eq]
  rfl

lemma mul_mod_eight (i n : ℕ) : 8 * i % (n * 8) = 8 * (i % n) := by
  rw [Nat.mul_comm n, Nat.mul_mod_mul_left]

lemma addr_sub_start (t : RegionTable) (i : ℕ) : t.covered.addr i - t.covered.start = 8 * i := by
  rw [Extent.addr_eq, Nat.add_sub_cancel_left]

lemma sub_start_addr (t : RegionTable) (i : ℕ) :
    Word.sub (t.covered.addr i) t.covered.start = .ok (8 * i) := by
  rw [Extent.addr_eq, Word.sub_eq (Nat.le_add_right ..), Nat.add_sub_cancel_left]

lemma addr_sub_mod (t : RegionTable) (i n : ℕ) :
    t.covered.addr i - 8 * i % (n * 8) = t.covered.addr (i / n * n) := by
  rw [mul_mod_eight, Extent.addr_eq, Extent.addr_eq]
  have hdiv := Nat.div_add_mod i n
  rw [Nat.mul_comm] at hdiv
  omega

lemma alignDown_addr (t : RegionTable) (i : ℕ) : t.alignDown (t.covered.addr i)
    = .ok (t.covered.addr (i / t.geometry.regionWords * t.geometry.regionWords)) := by
  rw [alignDown, sub_start_addr, ok_bind, Geometry.regionBytes, bytesPerWord, addr_sub_mod]
  rfl

lemma blockAlignDown_addr (t : RegionTable) (i : ℕ) : t.blockAlignDown (t.covered.addr i)
    = .ok (t.covered.addr (i / t.geometry.blockWords * t.geometry.blockWords)) := by
  rw [blockAlignDown, sub_start_addr, ok_bind, Geometry.blockBytes, bytesPerWord, addr_sub_mod]
  rfl

lemma blockOf_addr (h : t.Laid) {i : ℕ} (hi : i ≤ t.covered.words) :
    t.blockOf (t.covered.addr i) = .ok (i / t.geometry.blockWords) := by
  rw [blockOf, h.wordOffset_addr hi, ok_bind, Geometry.shiftRight_blockLog]
  rfl

/-! ### Addresses between words -/

/-- The bytes of a word are not told apart. -/
lemma wordOffset_byte (h : t.Laid) {i k : ℕ} (hi : i < t.covered.words) (hk : k < 8) :
    t.wordOffset (t.covered.addr i + k) = t.wordOffset (t.covered.addr i) := by
  rw [h.wordOffset_addr hi.le, wordOffset, Extent.offset_byte h.covered_lt hi hk, ok_bind,
    bytesPerWord]
  exact congrArg Except.ok (by omega)

lemma regionOf_byte (h : t.Laid) {i k : ℕ} (hi : i < t.covered.words) (hk : k < 8) :
    t.regionOf (t.covered.addr i + k) = t.regionOf (t.covered.addr i) := by
  rw [regionOf, regionOf, h.wordOffset_byte hi hk]

lemma offsetInRegion_byte (h : t.Laid) {i k : ℕ} (hi : i < t.covered.words) (hk : k < 8) :
    t.offsetInRegion (t.covered.addr i + k) = t.offsetInRegion (t.covered.addr i) := by
  rw [offsetInRegion, offsetInRegion, h.wordOffset_byte hi hk]

lemma blockOf_byte (h : t.Laid) {i k : ℕ} (hi : i < t.covered.words) (hk : k < 8) :
    t.blockOf (t.covered.addr i + k) = t.blockOf (t.covered.addr i) := by
  rw [blockOf, blockOf, h.wordOffset_byte hi hk]

lemma blockAlignDown_byte (t : RegionTable) (i : ℕ) {k : ℕ} (hk : k < 8) :
    t.blockAlignDown (t.covered.addr i + k) = t.blockAlignDown (t.covered.addr i) := by
  have hsub : Word.sub (t.covered.addr i + k) t.covered.start = .ok (8 * i + k) := by
    rw [Extent.addr_eq, Word.sub_eq (by omega), Nat.add_assoc, Nat.add_sub_cancel_left]
  have hmod : (8 * i + k) % (t.geometry.blockWords * 8)
      = 8 * i % (t.geometry.blockWords * 8) + k := by
    have hpos := t.geometry.blockWords_pos
    rw [mul_mod_eight, Nat.mul_comm _ 8, Nat.mod_mul, show (8 * i + k) / 8 = i by omega,
      show (8 * i + k) % 8 = k by omega]
    omega
  rw [blockAlignDown, blockAlignDown, hsub, sub_start_addr, ok_bind, ok_bind, Geometry.blockBytes,
    bytesPerWord, hmod, Nat.add_sub_add_right]

lemma regionOf_eq (h : t.Laid) {a : ℕ} (h1 : t.covered.start ≤ a)
    (h2 : a ≤ t.covered.start + t.covered.size) :
    t.regionOf a = .ok ((a - t.covered.start) / t.geometry.regionBytes) := by
  rw [regionOf, wordOffset, Extent.offset_eq_ok h.covered_lt h1 h2, ok_bind, bytesPerWord]
  show Except.ok (_ >>> _) = _
  rw [Geometry.shiftRight_regionLog, Nat.div_div_eq_div_mul, Geometry.regionBytes, bytesPerWord,
    Nat.mul_comm]

lemma alignUp_eq (h : t.Laid) {a : ℕ} (h1 : t.covered.start ≤ a)
    (h2 : a ≤ t.covered.start + t.covered.size) :
    t.alignUp a
      = .ok (t.covered.addr
        (upTo t.geometry.regionBytes (a - t.covered.start) * t.geometry.regionWords)) := by
  have hpos := t.geometry.regionBytes_pos
  have hroom := h.room
  have hlt := h.covered_lt
  have hcount : upTo t.geometry.regionBytes (a - t.covered.start) ≤ t.geometry.regionCount := by
    rw [upTo_le_iff hpos, ← Geometry.coveredBytes, ← h.size_eq]
    omega
  have hend : upTo t.geometry.regionBytes (a - t.covered.start) * t.geometry.regionBytes
      ≤ t.covered.size :=
    h.size_eq ▸ Nat.mul_le_mul_right _ hcount
  have hmod : (a - t.covered.start + (t.geometry.regionBytes - 1)) % wordValues
      = a - t.covered.start + (t.geometry.regionBytes - 1) := Nat.mod_eq_of_lt (by omega)
  have hdown : a - t.covered.start + (t.geometry.regionBytes - 1)
      - (a - t.covered.start + (t.geometry.regionBytes - 1)) % t.geometry.regionBytes
      = upTo t.geometry.regionBytes (a - t.covered.start) * t.geometry.regionBytes := by
    have hsum :=
      Nat.div_add_mod (a - t.covered.start + (t.geometry.regionBytes - 1)) t.geometry.regionBytes
    rw [Nat.mul_comm, ← upTo] at hsum
    omega
  rw [alignUp, Word.sub_eq h1, ok_bind]
  dsimp only
  rw [hmod, hdown, Word.add_eq (by omega), ← regionStart_eq, regionStart]

lemma regionUpTo_eq (h : t.Laid) {a : ℕ} (h1 : t.covered.start ≤ a)
    (h2 : a ≤ t.covered.start + t.covered.size) :
    t.regionUpTo a = .ok (upTo t.geometry.regionBytes (a - t.covered.start)) := by
  have hcount : upTo t.geometry.regionBytes (a - t.covered.start) ≤ t.geometry.regionCount := by
    rw [upTo_le_iff t.geometry.regionBytes_pos, ← Geometry.coveredBytes, ← h.size_eq]
    omega
  rw [regionUpTo, h.alignUp_eq h1 h2, ok_bind, h.regionOf_addr (by
    rw [h.covered_words]
    exact Nat.mul_le_mul_right _ hcount), Nat.mul_div_cancel _ t.geometry.regionWords_pos]

/-- The regions that the first `i` words reach are those that their bytes reach. -/
lemma upTo_bytes (t : RegionTable) (i : ℕ) :
    upTo t.geometry.regionBytes (8 * i) = upTo t.geometry.regionWords i := by
  have hbytes : ∀ r, r * t.geometry.regionBytes = 8 * (r * t.geometry.regionWords) := fun r => by
    rw [Geometry.regionBytes, bytesPerWord, ← Nat.mul_assoc, Nat.mul_comm]
  apply le_antisymm
  · rw [upTo_le_iff t.geometry.regionBytes_pos, hbytes]
    exact Nat.mul_le_mul_left 8 (le_upTo_mul t.geometry.regionWords_pos i)
  · have hle := le_upTo_mul t.geometry.regionBytes_pos (8 * i)
    rw [upTo_le_iff t.geometry.regionWords_pos]
    rw [hbytes] at hle
    omega

lemma alignUp_addr (h : t.Laid) {i : ℕ} (hi : i ≤ t.covered.words) : t.alignUp (t.covered.addr i)
    = .ok (t.covered.addr (upTo t.geometry.regionWords i * t.geometry.regionWords)) := by
  have hsize := h.size_words
  rw [h.alignUp_eq (by rw [Extent.addr_eq]; omega) (by rw [Extent.addr_eq]; omega),
    addr_sub_start, upTo_bytes]

lemma regionUpTo_addr (h : t.Laid) {i : ℕ} (hi : i ≤ t.covered.words) :
    t.regionUpTo (t.covered.addr i) = .ok (upTo t.geometry.regionWords i) := by
  have hsize := h.size_words
  rw [h.regionUpTo_eq (by rw [Extent.addr_eq]; omega) (by rw [Extent.addr_eq]; omega),
    addr_sub_start, upTo_bytes]

end Laid

lemma laid_empty {covered : Extent} {g : Geometry} (hlt : covered.start + covered.size < wordValues)
    (hsize : covered.size = g.coveredBytes) (hroom : covered.size + g.regionBytes < wordValues)
    (hwords : g.regionWords < liveLimit) : (RegionTable.empty covered g).Laid :=
  ⟨hlt, hsize, hroom, hwords, rfl, rfl, rfl, rfl⟩

end RegionTable

end MarkCompact
