import MarkCompact.Proofs.BlockOffsets
import MarkCompact.Proofs.Packing

/-!
# Parts of the tables

The spaces of a heap share one bitmap, one table of regions and one of blocks, and each works on a
part of them: on its own regions, their blocks and their bits.  `t.SameOn P t'` says that two tables
hold the same in the regions with the property `P`. What is done to such a part depends on nothing
else and changes nothing else: `Follows P t x x'` says so of two results `x` and `x'` that come from
the table `t` and from one that is the same in the part.

Main statements: `Mirrors.addObject`, `Mirrors.summarize`, `Mirrors.keepInPlace` and
`Mirrors.fillBlocks`.
-/

namespace MarkCompact

variable {P : ℕ → Prop} {a b i n r : ℕ}

/-! ## Two results -/

/-- Both results are there and stand in the relation, or both are the same fault. -/
inductive Alike {α β : Type} (R : α → β → Prop) : Except Fault α → Except Fault β → Prop
  | ok {a : α} {b : β} (rel : R a b) : Alike R (.ok a) (.ok b)
  | error (fault : Fault) : Alike R (.error fault) (.error fault)

namespace Alike

variable {α α' β β' γ : Type} {R : α → α' → Prop} {S : β → β' → Prop} {x : Except Fault α}
  {x' : Except Fault α'} {f : α → Except Fault β} {f' : α' → Except Fault β'} {u v : Except Fault β}
  {u' v' : Except Fault β'}

lemma mono {R' : α → α' → Prop} (h : Alike R x x') (himp : ∀ a a', R a a' → R' a a') :
    Alike R' x x' := by
  cases h with
  | ok rel => exact .ok (himp _ _ rel)
  | error fault => exact .error fault

lemma bind (h : Alike R x x') (hnext : ∀ a a', x = .ok a → R a a' → Alike S (f a) (f' a')) :
    Alike S (x >>= f) (x' >>= f') := by
  cases h with
  | ok rel => exact hnext _ _ rfl rel
  | error fault => exact .error fault

/-- A first step that is the same in both. -/
lemma check {y y' : Except Fault γ} {g : γ → Except Fault β} {g' : γ → Except Fault β'}
    (heq : y' = y) (hnext : ∀ c, y = .ok c → Alike S (g c) (g' c)) :
    Alike S (y >>= g) (y' >>= g') := by
  subst heq
  cases y' with
  | ok c => exact hnext c rfl
  | error fault => exact .error fault

lemma ite {c : Prop} [Decidable c] (hthen : c → Alike S u u') (helse : ¬c → Alike S v v') :
    Alike S (if c then u else v) (if c then u' else v') := by
  by_cases hc : c
  · simpa only [if_pos hc] using hthen hc
  · simpa only [if_neg hc] using helse hc

end Alike

/-! ## Bits -/

namespace Bitset

/-- The sets are in order, and have the same members among the numbers with the property `P`. -/
structure SameOn (P : ℕ → Prop) (b b' : Bitset) : Prop where
  valid : b.Valid
  valid' : b'.Valid
  size_eq : b'.size = b.size
  mem_eq : ∀ i, P i → b'.mem i = b.mem i

namespace SameOn

variable {s s' s'' u u' : Bitset} {fresh fresh' : Bool}

lemma refl (P : ℕ → Prop) (h : s.Valid) : SameOn P s s :=
  ⟨h, h, rfl, fun _ _ => rfl⟩

lemma symm (h : SameOn P s s') : SameOn P s' s :=
  ⟨h.valid', h.valid, h.size_eq.symm, fun i hi => (h.mem_eq i hi).symm⟩

lemma trans (h : SameOn P s s') (h' : SameOn P s' s'') : SameOn P s s'' :=
  ⟨h.valid, h'.valid', h'.size_eq.trans h.size_eq,
    fun i hi => (h'.mem_eq i hi).trans (h.mem_eq i hi)⟩

/-- A search finds the same. -/
lemma firstIn_eq (h : SameOn P s s') (hP : ∀ i, a ≤ i → i < b → P i) :
    s'.firstIn a b = s.firstIn a b := by
  rcases Nat.lt_or_ge b a with hlt | hle
  · rw [firstIn, firstIn, if_pos hlt.le, if_pos hlt.le]
  · have hfound := firstIn_spec h.valid hle
    have hfound' := firstIn_spec h.valid' hle
    rcases Nat.lt_or_ge (s.firstIn a b) b with hin | hout
    · refine hfound'.eq_of_holds ?_ hfound.start_le hin fun j h1 h2 => ?_
      · rw [h.mem_eq _ (hP _ hfound.start_le hin)]
        exact hfound.holds hin
      · rw [h.mem_eq j (hP j h1 (h2.trans hin))]
        exact hfound.before j h1 h2
    · have hnone : s.firstIn a b = b := le_antisymm hfound.le_stop hout
      rw [hnone]
      refine hfound'.eq_stop fun j h1 h2 => ?_
      rw [h.mem_eq j (hP j h1 h2)]
      exact hfound.before j h1 (lt_of_lt_of_le h2 hout)

/-- Inserting a bit of the part does the same to both sets, and to no other bit. -/
lemma insert (h : SameOn P s s') (hi : P i) :
    Alike (fun out out' => out'.1 = out.1 ∧ SameOn P out.2 out'.2
      ∧ SameOn (fun j => ¬P j) s out.2) (s.insert i) (s'.insert i) := by
  rw [Bitset.insert, Bitset.insert, h.size_eq, h.mem_eq i hi]
  refine .ite (fun hlt => ?_) fun _ => .error _
  by_cases hmem : s.mem i
  · rw [if_pos hmem, if_pos hmem]
    exact .ok ⟨rfl, h, .refl _ h.valid⟩
  · rw [if_neg hmem, if_neg hmem]
    refine .ok ⟨rfl, ⟨h.valid.set i, h.valid'.set i, h.size_eq, fun j hj => ?_⟩,
      ⟨h.valid, h.valid.set i, rfl, fun j hj => ?_⟩⟩
    · rw [mem_set h.valid hlt, mem_set h.valid' (h.size_eq ▸ hlt), h.mem_eq j hj]
    · rw [mem_set h.valid hlt, decide_eq_false fun hji : j = i => hj (hji ▸ hi), Bool.false_or]

end SameOn

end Bitset

namespace MarkBitmap

/-- The bitmaps are over one range, and hold the same bits for the words with the property `P`. -/
structure SameOn (P : ℕ → Prop) (m m' : MarkBitmap) : Prop where
  covered : m'.covered = m.covered
  begins : m.begins.SameOn P m'.begins
  ends : m.ends.SameOn P m'.ends

namespace SameOn

variable {m m' m'' n n' : MarkBitmap} {addr words : ℕ} {fresh fresh' : Bool}

lemma refl (P : ℕ → Prop) (hbegins : m.begins.Valid) (hends : m.ends.Valid) : SameOn P m m :=
  ⟨rfl, .refl P hbegins, .refl P hends⟩

lemma symm (h : SameOn P m m') : SameOn P m' m :=
  ⟨h.covered.symm, h.begins.symm, h.ends.symm⟩

lemma trans (h : SameOn P m m') (h' : SameOn P m' m'') : SameOn P m m'' :=
  ⟨h'.covered.trans h.covered, h.begins.trans h'.begins, h.ends.trans h'.ends⟩

lemma bitOf_eq (h : SameOn P m m') (addr : ℕ) : m'.bitOf addr = m.bitOf addr := by
  rw [bitOf, bitOf, h.covered]

/-- Marking an object of the part does the same to both bitmaps, and to no other bit. -/
lemma mark (h : m.SameOn P m') (addr words : ℕ)
    (hP : ∀ first, m.bitOf addr = .ok first → P first ∧ P (first + words - 1)) :
    Alike (fun out out' => out'.1 = out.1 ∧ out.2.SameOn P out'.2 ∧ m.SameOn (fun i => ¬P i) out.2)
      (m.mark addr words) (m'.mark addr words) := by
  rw [MarkBitmap.mark, MarkBitmap.mark]
  refine .ite (fun _ => .error _) fun _ => .check (h.bitOf_eq addr) fun first hfirst => ?_
  obtain ⟨h1, h2⟩ := hP first hfirst
  refine (h.begins.insert h1).bind fun out out' _ hbegins => ?_
  obtain ⟨fresh, begins⟩ := out
  obtain ⟨fresh', begins'⟩ := out'
  obtain ⟨rfl, hsame, hrest⟩ := hbegins
  cases fresh' with
  | false => exact .ok ⟨rfl, h, .refl _ h.begins.valid h.ends.valid⟩
  | true =>
    refine .check rfl fun past hpast => ?_
    have hlast : P (past - 1) := by rwa [← (Word.add_eq_ok_iff.1 hpast).2]
    exact (h.ends.insert hlast).bind fun _ _ _ hends =>
      .ok ⟨rfl, ⟨h.covered, hsame, hends.2.1⟩, ⟨rfl, hrest, hends.2.2⟩⟩

end SameOn

end MarkBitmap

/-! ## Regions and blocks -/

namespace Region

variable {a b : Region} {addr : ℕ}

lemma partialWords_lt (h : (do
      let a ← a.setPartialWords n
      pure { a with partialStart := addr } : Except Fault Region) = .ok b) :
        b.partialWords < liveLimit := by
  obtain ⟨c, hc, hb⟩ := bind_eq_ok_iff.1 h
  cases hb
  rw [setPartialWords] at hc
  split at hc
  · cases hc
    assumption
  · cases hc

lemma partialWords_addLive (h : a.addLive n = .ok b) : b.partialWords = a.partialWords := by
  obtain ⟨sum, -, hb⟩ := bind_eq_ok_iff.1 h
  split at hb <;> cases hb
  rfl

lemma partialWords_setCount (h : a.setCount n = .ok b) : b.partialWords = a.partialWords := by
  rw [setCount] at h
  split at h <;> cases h
  rfl

lemma partialWords_setLiveWords (h : a.setLiveWords n = .ok b) :
    b.partialWords = a.partialWords := by
  rw [setLiveWords] at h
  split at h <;> cases h
  rfl

end Region

namespace RegionTable

lemma SameShape.symm {t t' : RegionTable} (h : t.SameShape t') : t'.SameShape t :=
  ⟨h.covered.symm, h.geometry.symm, h.regions_size.symm, h.blocks_size.symm, h.regions_blank.symm,
    h.blocks_blank.symm⟩

/-- The tables have one shape, and hold the same in the regions with the property `P` and in their
blocks. -/
structure SameOn (P : ℕ → Prop) (t t' : RegionTable) : Prop where
  shape : t.SameShape t'
  regions : ∀ r, P r → t'.regions.get r = t.regions.get r
  blocks : ∀ k, P (k / t.geometry.blocksPerRegion) → t'.blocks.get k = t.blocks.get k

variable {t t' t'' t₁ t₁' : RegionTable} {addr words : ℕ}

namespace SameOn

lemma refl (P : ℕ → Prop) (t : RegionTable) : SameOn P t t :=
  ⟨.refl t, fun _ _ => rfl, fun _ _ => rfl⟩

lemma trans (h : SameOn P t t') (h' : SameOn P t' t'') : SameOn P t t'' where
  shape := h.shape.trans h'.shape
  regions r hr := (h'.regions r hr).trans (h.regions r hr)
  blocks k hk := (h'.blocks k (h.shape.geometry ▸ hk)).trans (h.blocks k hk)

section

variable (h : SameOn P t t')
include h

lemma region_eq (hr : P r) : t'.region r = t.region r := by
  rw [region, region, h.shape.geometry, h.regions r hr]

lemma block_eq {k : ℕ} (hk : P (k / t.geometry.blocksPerRegion)) : t'.block k = t.block k := by
  rw [block, block, h.shape.geometry, h.blocks k hk]

end

end SameOn

/-! ## Results that follow one another -/

/-- The tables hold the same in the part, and partial words there fit their field. -/
structure Mirrors (P : ℕ → Prop) (t t' : RegionTable) : Prop extends t.SameOn P t' where
  fits : ∀ r, P r → (t.regions.get r).partialWords < liveLimit

/-- The results are the same in the part, and the first one is as the table `t` elsewhere. -/
def Follows (P : ℕ → Prop) (t : RegionTable) : (x x' : Except Fault RegionTable) → Prop :=
  Alike fun t₁ t₁' => t₁.Mirrors P t₁' ∧ t.SameOn (fun r => ¬P r) t₁

variable {x x' : Except Fault RegionTable} {f f' : RegionTable → Except Fault RegionTable}

namespace Follows

lemma pure (h : t.Mirrors P t') : Follows P t (pure t) (pure t') :=
  .ok ⟨h, .refl _ t⟩

lemma bind (h : Follows P t x x')
    (hnext : ∀ t₁ t₁', t₁.Mirrors P t₁' → t.SameShape t₁ → Follows P t₁ (f t₁) (f' t₁')) :
    Follows P t (x >>= f) (x' >>= f') :=
   Alike.bind h fun t₁ t₁' _ rel => (hnext t₁ t₁' rel.1 rel.2.shape).mono fun _ _ rel' =>
     ⟨rel'.1, rel.2.trans rel'.2⟩

end Follows

namespace Mirrors

variable {addr words count : ℕ}

/-- Writing the summary of a region of the part. -/
lemma setRegion (h : t.Mirrors P t') (hr : P r) {c : Region} (hc : c.partialWords < liveLimit) :
    Follows P t (.ok (t.setRegion r c)) (.ok (t'.setRegion r c)) := by
  refine .ok ⟨⟨⟨?_, fun q hq => ?_, h.blocks⟩, fun q hq => ?_⟩,
    ⟨sameShape_setRegion .., fun q hq => ?_, fun _ _ => rfl⟩⟩
  · exact (sameShape_setRegion ..).symm.trans (h.shape.trans (sameShape_setRegion ..))
  · rw [RegionTable.setRegion, RegionTable.setRegion, Table.get_set, Table.get_set,
      h.shape.regions_size, h.regions q hq]
  · rw [RegionTable.setRegion, Table.get_set]
    split
    · exact hc
    · exact h.fits q hq
  · exact Table.get_set_of_ne _ _ fun hrq => hq (hrq ▸ hr)

/-- Changing the summary of a region of the part. -/
lemma update (h : t.Mirrors P t') (hr : P r) {f : Region → Except Fault Region}
    (hf : ∀ a b, a.partialWords < liveLimit → f a = .ok b → b.partialWords < liveLimit) :
    Follows P t (t.update r f) (t'.update r f) := by
  rw [RegionTable.update, RegionTable.update]
  refine .check (h.region_eq hr) fun a ha => .check rfl fun b hb =>
    h.setRegion hr (hf a b ((region_eq_ok_iff.1 ha).2 ▸ h.fits r hr) hb)

lemma dataWords_lt (h : t.Mirrors P t') (hr : P r) {c : Region} (hc : t.region r = .ok c) :
    8 * c.dataWords < wordValues := by
  have hfits := h.fits r hr
  rw [(region_eq_ok_iff.1 hc).2] at hfits
  have hlive := c.liveWords_lt
  simp only [Region.dataWords, liveLimit, wordValues] at hfits hlive ⊢
  omega

/-! ### Accounting -/

lemma coverRegions (h : t.Mirrors P t') (hP : ∀ q, r ≤ q → q < r + count → P q) :
    Follows P t (coverRegions addr count r t) (coverRegions addr count r t') := by
  induction count generalizing r t t' with
  | zero => exact .pure h
  | succ count ih =>
    rw [RegionTable.coverRegions, RegionTable.coverRegions, h.shape.geometry]
    refine (h.update (hP r le_rfl (by omega)) fun a b _ heq => Region.partialWords_lt heq).bind
      fun t₁ t₁' h₁ _ => ?_
    exact ih h₁ fun q h1 h2 => hP q (by omega) (by omega)

/-- Accounting an object whose regions belong to the part. -/
lemma addObject (h : t.Mirrors P t') (hP : ∀ offset, t.wordOffset addr = .ok offset →
      ∀ q, offset / t.geometry.regionWords ≤ q →
      q ≤ (offset + words - 1) / t.geometry.regionWords → P q) :
    Follows P t (t.addObject addr words) (t'.addObject addr words) := by
  rw [RegionTable.addObject, RegionTable.addObject, h.shape.geometry]
  refine .ite (fun _ => .error _) fun hwords =>
    .check (h.shape.wordOffset_eq addr) fun offset hoffset =>
    .check rfl fun past hpast => ?_
  simp only [Geometry.shiftRight_regionLog, ← (Word.add_eq_ok_iff.1 hpast).2]
  have hle : offset / t.geometry.regionWords ≤ (offset + words - 1) / t.geometry.regionWords :=
    Nat.div_le_div_right (by omega)
  have hhead := hP offset hoffset _ le_rfl hle
  refine .ite (fun _ => h.update hhead fun a b ha heq => Region.partialWords_addLive heq ▸ ha)
    fun hne => ?_
  refine (h.update hhead fun a b ha heq => Region.partialWords_addLive heq ▸ ha).bind
    fun t₁ t₁' h₁ _ => ?_
  refine (h₁.coverRegions fun q h1 h2 => hP offset hoffset q (by omega) (by omega)).bind
    fun t₂ t₂' h₂ _ => ?_
  exact h₂.update (hP offset hoffset _ hle le_rfl) fun a b _ heq => Region.partialWords_lt heq

/-- Accounting objects whose regions belong to the part. -/
lemma accountObjects {objects : List Run} (h : t.Mirrors P t')
    (hP : ∀ o ∈ objects, ∀ offset, t.wordOffset o.start = .ok offset →
      ∀ q, offset / t.geometry.regionWords ≤ q →
      q ≤ (offset + o.words - 1) / t.geometry.regionWords → P q) :
    Follows P t (Heap.accountObjects objects t) (Heap.accountObjects objects t') := by
  induction objects generalizing t t' with
  | nil => exact .pure h
  | cons o rest ih =>
    rw [Heap.accountObjects, Heap.accountObjects]
    refine (h.addObject (hP o List.mem_cons_self)).bind fun t₁ t₁' h₁ hshape =>
      ih h₁ fun o' ho' => ?_
    rw [wordOffset, hshape.covered, ← wordOffset, hshape.geometry]
    exact hP o' (List.mem_cons_of_mem _ ho')

/-! ### Packing -/

lemma keepRegions (h : t.Mirrors P t') (hP : ∀ q, r ≤ q → q < r + count → P q) :
    Follows P t (keepRegions count r t) (keepRegions count r t') := by
  induction count generalizing r t t' with
  | zero => exact .pure h
  | succ count ih =>
    rw [RegionTable.keepRegions, RegionTable.keepRegions]
    simp only [h.shape.geometry, h.shape.regionStart_eq]
    refine (h.update (hP r le_rfl (by omega)) fun a b ha heq => ?_).bind fun t₁ t₁' h₁ _ =>
      ih h₁ fun q h1 h2 => hP q (by omega) (by omega)
    obtain ⟨c, hc, heq⟩ := bind_eq_ok_iff.1 heq
    obtain ⟨words, -, heq⟩ := bind_eq_ok_iff.1 heq
    rw [Region.partialWords_setLiveWords heq]
    exact Region.partialWords_setCount hc ▸ ha

/-- Keeping regions of the part in place. -/
lemma keepInPlace (h : t.Mirrors P t')
    (hP : ∀ first last, t.regionOf a = .ok first → t.regionOf b = .ok last →
      ∀ q, first ≤ q → q < last → P q) : Follows P t (t.keepInPlace a b) (t'.keepInPlace a b) := by
  rw [RegionTable.keepInPlace, RegionTable.keepInPlace]
  refine .check (h.shape.isAligned_eq a) fun _ _ => .ite (fun _ => .error _) fun _ => ?_
  refine .check (h.shape.isAligned_eq b) fun _ _ => .ite (fun _ => .error _) fun _ => ?_
  refine .check (h.shape.regionOf_eq b) fun last hlast =>
    .check (h.shape.regionOf_eq a) fun first hfirst => ?_
  exact h.keepRegions fun q h1 h2 => hP first last hfirst hlast q h1 (by omega)

/-- Planning the data of a region of the part for words whose regions belong to it. -/
lemma placeRegion (h : t.Mirrors P t') (hr : P r)
    (hP : ∀ addr q, a ≤ addr → addr < b → t.regionOf addr = .ok q → P q) (hpos : 0 < words)
    (hwords : 8 * words < wordValues) (hfit : a + 8 * words ≤ b) :
    Follows P t (t.placeRegion r words a) (t'.placeRegion r words a) := by
  rw [RegionTable.placeRegion, RegionTable.placeRegion]
  refine .check rfl fun lastWord hlastWord => .check (h.shape.regionOf_eq a) fun first hfirst =>
    .check (h.shape.regionOf_eq lastWord) fun last hlast => ?_
  have hfirst : P first := hP a first le_rfl (by omega) hfirst
  have hlast : P last := by
    obtain ⟨-, hlastWord⟩ := Word.add_eq_ok_iff.1 hlastWord
    rw [bytes_eq (by omega)] at hlastWord
    exact hP lastWord last (by omega) (by omega) hlast
  have hcount : ∀ {t₁ t₁' : RegionTable}, t₁.Mirrors P t₁' →
      Follows P t₁ (t₁.update r (·.setCount (otherRegions r first last)))
        (t₁'.update r (·.setCount (otherRegions r first last))) := fun h₁ =>
    h₁.update hr fun _ _ ha heq => Region.partialWords_setCount heq ▸ ha
  have hsource : ∀ {q}, P q → Follows P t (t.update q fun a => Pure.pure { a with source := r })
      (t'.update q fun a => Pure.pure { a with source := r }) := fun hq =>
    h.update hq fun _ _ ha heq => by
      cases heq
      exact ha
  refine .check (h.shape.isAligned_eq a) fun aligned _ => .ite (fun _ => ?_) fun _ =>
    .ite (fun _ => ?_) fun _ => hcount h
  · exact (hsource hlast).bind fun _ _ h₁ _ => hcount h₁
  · exact (hsource hfirst).bind fun _ _ h₁ _ => hcount h₁

/-- Packing regions of the part to words whose regions belong to it. -/
lemma packRegions (h : t.Mirrors P t') (hsources : ∀ q, r ≤ q → q < r + count → P q)
    (hP : ∀ addr q, a ≤ addr → addr < b → t.regionOf addr = .ok q → P q) :
    Alike (fun out out' => out'.1 = out.1 ∧ out.2.Mirrors P out'.2 ∧ t.SameOn (fun r => ¬P r) out.2)
      (packRegions b count r a t) (packRegions b count r a t') := by
  induction count generalizing r a t t' with
  | zero => exact .ok ⟨rfl, h, .refl _ t⟩
  | succ count ih =>
    have hr : P r := hsources r le_rfl (by omega)
    rw [RegionTable.packRegions, RegionTable.packRegions]
    have hplaced : Follows P t (t.update r fun c => Pure.pure { c with destination := a })
        (t'.update r fun c => Pure.pure { c with destination := a }) :=
          h.update hr fun _ _ hc heq => by
      cases heq
      exact hc
    refine Alike.bind hplaced fun t₁ t₁' _ hboth => ?_
    obtain ⟨h₁, hrest⟩ := hboth
    refine .check (h₁.region_eq hr) fun c hc => ?_
    have hwords : 8 * c.dataWords < wordValues := h₁.dataWords_lt hr hc
    have hP₁ : ∀ addr q, a ≤ addr → addr < b → t₁.regionOf addr = .ok q → P q :=
      fun addr q h1 h2 heq =>
      hP addr q h1 h2 (hrest.shape.regionOf_eq addr ▸ heq)
    refine .ite (fun _ => ?_) fun hne => .check rfl fun next hnext =>
      .ite (fun _ => ?_) fun hle => ?_
    · exact (ih h₁ (fun q h1 h2 => hsources q (by omega) (by omega)) hP₁).mono
        fun _ _ rel => ⟨rel.1, rel.2.1, hrest.trans rel.2.2⟩
    · rw [h₁.shape.regionStart_eq]
      exact .ite (fun _ => .error _) fun _ => .ok ⟨rfl, h₁, hrest⟩
    · have hnext : a + 8 * c.dataWords = next := by
        obtain ⟨-, hnext⟩ := Word.add_eq_ok_iff.1 hnext
        rwa [bytes_eq (by omega)] at hnext
      refine Alike.bind (h₁.placeRegion hr hP₁ (by omega) hwords (by omega))
        fun t₂ t₂' _ hboth₂ => ?_
      obtain ⟨h₂, hrest₂⟩ := hboth₂
      refine (ih h₂ (fun q h1 h2 => hsources q (by omega) (by omega))
        fun addr q h1 h2 heq => ?_).mono
        fun _ _ rel => ⟨rel.1, rel.2.1, hrest.trans (hrest₂.trans rel.2.2)⟩
      exact hP₁ addr q (by omega) h2 (hrest₂.shape.regionOf_eq addr ▸ heq)

/-- Packing what the regions of the part hold into the words between two addresses of it. -/
lemma summarize {c d : ℕ} (h : t.Mirrors P t')
    (hsources : ∀ first last, t.regionOf c = .ok first → t.regionUpTo d = .ok last →
      ∀ q, first ≤ q → q < last → P q)
    (hP : ∀ addr q, a ≤ addr → addr < b → t.regionOf addr = .ok q → P q) :
    Alike (fun out out' => out'.1 = out.1 ∧ out.2.Mirrors P out'.2 ∧ t.SameOn (fun r => ¬P r) out.2)
      (t.summarize a b c d) (t'.summarize a b c d) := by
  rw [RegionTable.summarize, RegionTable.summarize]
  refine .check (h.shape.regionUpTo_eq d) fun last hlast =>
    .check (h.shape.regionOf_eq c) fun first hfirst => ?_
  exact h.packRegions (fun q h1 h2 => hsources first last hfirst hlast q h1 (by omega)) hP

/-! ### Block offsets -/

/-- Recording the offset of a block of the part. -/
lemma setBlock (h : t.Mirrors P t') {k : ℕ} (hk : P (k / t.geometry.blocksPerRegion))
    (entry : Block) :
    Follows P t (.ok { t with blocks := t.blocks.set k entry })
      (.ok { t' with blocks := t'.blocks.set k entry }) := by
  refine .ok ⟨⟨⟨?_, h.regions, fun j hj => ?_⟩, h.fits⟩,
    ⟨sameShape_setBlock .., fun _ _ => rfl, fun j hj => ?_⟩⟩
  · exact (sameShape_setBlock ..).symm.trans (h.shape.trans (sameShape_setBlock ..))
  · rw [Table.get_set, Table.get_set, h.shape.blocks_size, h.blocks j hj]
  · exact Table.get_set_of_ne _ _ fun hkj => hj (hkj ▸ hk)

variable {m m' : MarkBitmap} {first stop beg live tries : ℕ} {seen : Option ℕ}

lemma recordBlocks (h : t.Mirrors P t') (hm : m.SameOn (fun w => P (w / t.geometry.regionWords)) m')
    (hP : ∀ w, beg ≤ w → w < stop → P (w / t.geometry.regionWords)) :
    Follows P t (recordBlocks m stop tries beg live seen t)
      (recordBlocks m' stop tries beg live seen t') := by
  induction tries generalizing beg live seen t t' with
  | zero => exact .pure h
  | succ tries ih =>
    rw [RegionTable.recordBlocks, RegionTable.recordBlocks]
    refine .ite (fun _ => Follows.pure h) fun hlt => ?_
    have hle : beg ≤ m.ends.firstIn beg stop :=
      (Bitset.firstIn_spec hm.ends.valid (by omega)).start_le
    have hnext : ∀ w, m.ends.firstIn beg stop + 1 ≤ w → w < stop → P (w / t.geometry.regionWords) :=
      fun w h1 h2 =>
      hP w (by omega) h2
    simp only [Geometry.shiftRight_blockLog, congrArg Geometry.blockWords h.shape.geometry,
      hm.ends.firstIn_eq hP, hm.begins.firstIn_eq hnext]
    have hrest : ∀ {t₁ t₁' : RegionTable} {seen live}, t₁.Mirrors P t₁' → t.SameShape t₁ →
        Follows P t₁
        (if stop ≤ m.ends.firstIn beg stop + 1 then Pure.pure t₁
          else RegionTable.recordBlocks m stop tries
            (m.begins.firstIn (m.ends.firstIn beg stop + 1) stop) live seen t₁)
        (if stop ≤ m.ends.firstIn beg stop + 1 then Pure.pure t₁'
          else RegionTable.recordBlocks m' stop tries
            (m.begins.firstIn (m.ends.firstIn beg stop + 1) stop) live seen t₁') := by
      intro t₁ t₁' seen live h₁ hshape
      refine Alike.ite (fun _ => Follows.pure h₁) fun hgt =>
        ih h₁ (hshape.geometry ▸ hm) fun w h1 h2 => ?_
      have hfound :=
        (Bitset.firstIn_spec hm.begins.valid
          (by omega : m.ends.firstIn beg stop + 1 ≤ stop)).start_le
      exact hshape.geometry ▸ hnext w (hfound.trans h1) h2
    have hblock : P (beg / t.geometry.blockWords / t.geometry.blocksPerRegion) := by
      rw [t.geometry.div_blockWords_div]
      exact hP beg le_rfl (by omega)
    refine .ite (fun _ => hrest h (.refl t)) fun _ => .check (h.block_eq hblock) fun _ _ =>
      .check rfl fun entry _ => ?_
    exact (h.setBlock hblock entry).bind fun t₁ t₁' h₁ hshape => hrest h₁ hshape

/-- Recording the block offsets of a region of the part. -/
lemma fillBlocks (ht : t.Laid) (h : t.Mirrors P t')
    (hm : m.SameOn (fun w => P (w / t.geometry.regionWords)) m') (hcovered : m.covered = t.covered)
    (hr : P r) : Follows P t (t.fillBlocks m r) (t'.fillBlocks m' r) := by
  rw [RegionTable.fillBlocks, RegionTable.fillBlocks]
  refine .check (h.region_eq hr) fun c hc => ?_
  have hcount : r < t.geometry.regionCount := (region_eq_ok_iff.1 hc).1
  have hfilled : ∀ {t₁ t₁' : RegionTable}, t₁.Mirrors P t₁' →
      Follows P t₁ (t₁.update r fun a => Pure.pure { a with blocksFilled := true })
        (t₁'.update r fun a => Pure.pure { a with blocksFilled := true }) := fun h₁ =>
    h₁.update hr fun _ _ ha heq => by
      cases heq
      exact ha
  simp only [h.shape.geometry, h.shape.regionStart_eq]
  refine .ite (fun _ => hfilled h) fun hpartial => .check (hm.bitOf_eq _) fun first hfirst => ?_
  have hfirst : first = r * t.geometry.regionWords := by
    have hle : r * t.geometry.regionWords ≤ t.covered.words :=
      ht.covered_words ▸ Nat.mul_le_mul_right _ hcount.le
    rw [MarkBitmap.bitOf, hcovered, ← RegionTable.wordOffset, Laid.regionStart_eq,
      ht.wordOffset_addr hle] at hfirst
    cases hfirst
    rfl
  have hP : ∀ w, first ≤ w → w < first + t.geometry.regionWords → P (w / t.geometry.regionWords) :=
    fun w h1 h2 => by
    rwa [div_eq_of_bounds (by omega)
      (by omega : w < r * t.geometry.regionWords + t.geometry.regionWords)]
  rw [hm.begins.firstIn_eq fun w h1 h2 => hP w (by omega) h2]
  have hfound := (Bitset.firstIn_spec hm.begins.valid
    (by omega : first + c.partialWords ≤ first + t.geometry.regionWords)).start_le
  exact (h.recordBlocks hm fun w h1 h2 => hP w (by omega) h2).bind fun t₁ t₁' h₁ _ => hfilled h₁

/-- Recording the block offsets of regions of the part. -/
lemma fillBlocksFrom {count : ℕ} (ht : t.Laid) (h : t.Mirrors P t')
    (hm : m.SameOn (fun w => P (w / t.geometry.regionWords)) m') (hcovered : m.covered = t.covered)
    (hP : ∀ q, r ≤ q → q < r + count → P q) :
    Follows P t (Heap.fillBlocksFrom m count r t) (Heap.fillBlocksFrom m' count r t') := by
  induction count generalizing r t t' with
  | zero => exact .pure h
  | succ count ih =>
    have hr : P r := hP r le_rfl (by omega)
    have hrest : ∀ {t₁ t₁' : RegionTable}, t₁.Mirrors P t₁' → t.SameShape t₁ →
        Follows P t₁ (Heap.fillBlocksFrom m count (r + 1) t₁)
          (Heap.fillBlocksFrom m' count (r + 1) t₁') := fun h₁ hshape =>
      ih (hshape.laid ht) h₁ (hshape.geometry ▸ hm) (hcovered.trans hshape.covered.symm)
        fun q h1 h2 =>
        hP q (by omega) (by omega)
    rw [Heap.fillBlocksFrom, Heap.fillBlocksFrom, h.shape.geometry]
    refine .check (h.region_eq hr) fun c _ => .ite (fun _ => ?_) fun _ => hrest h (.refl t)
    exact (h.fillBlocks ht hm hcovered hr).bind fun t₁ t₁' h₁ hshape => hrest h₁ hshape

end Mirrors

end RegionTable

end MarkCompact
