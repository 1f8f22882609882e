import MarkCompact.Proofs.PartReads
import MarkCompact.Proofs.PlannedHeaps

/-!
# Planning one space is local

Planning a space is a job that works on the part of the space: its own entry among the spaces, the
regions of its zone, their blocks and their bits.  `h.Twins i z g` says that space `i` lies over the
zone `z` in both heaps and that they hold the same there.  `Local i z act act' h g` says that two
actions do the same to that part of the two heaps, or end with the same fault, and that the first
one changes nothing else; each way to build an action has a rule for it.

Main statement: `planSpace_local`.
-/

namespace MarkCompact

variable {objs : List Span} {z : Zone} {i k r x : ℕ}

/-- Region `r` is one of the zone. -/
def Zone.Owns (z : Zone) (r : ℕ) : Prop :=
  z.first ≤ r ∧ r < z.last

/-- What is planned of the space lies in it. -/
structure Space.Within (s : Space) : Prop where
  newTop_le : s.newTop ≤ s.top
  bottom_le : s.bottom ≤ s.densePrefix

namespace Space.Over

variable {s s' : Space} {e : Extent} {W n : ℕ}

lemma setNewTop (h : s.Over e W z) (heq : s.setNewTop n = .ok s') : s'.Over e W z := by
  rw [Space.setNewTop] at heq
  split at heq <;> cases heq
  exact ⟨h.bottom, h.limit, h.top, h.starts⟩

lemma setDensePrefix (h : s.Over e W z) (heq : s.setDensePrefix n = .ok s') : s'.Over e W z := by
  rw [Space.setDensePrefix] at heq
  split at heq <;> cases heq
  exact ⟨h.bottom, h.limit, h.top, h.starts⟩

lemma recordStart (h : s.Over e W z) (heq : s.recordStart n = .ok s') : s'.Over e W z := by
  obtain ⟨starts, hstarts, heq⟩ := bind_eq_ok_iff.1 heq
  obtain ⟨card, -, hstarts⟩ := bind_eq_ok_iff.1 hstarts
  cases hstarts
  cases heq
  exact h.withStarts rfl

end Space.Over

namespace Space

variable {s s' : Space} {n : ℕ}

lemma newTop_le_top (heq : s.setNewTop n = .ok s') : s'.newTop ≤ s'.top := by
  rw [setNewTop] at heq
  split at heq
  case isTrue hle =>
    cases heq
    exact hle.2
  case isFalse => cases heq

lemma within_setNewTop (h : s.bottom ≤ s.densePrefix) (heq : s.setNewTop n = .ok s') :
    s'.Within := by
  rw [setNewTop] at heq
  split at heq
  case isTrue hle =>
    cases heq
    exact ⟨hle.2, h⟩
  case isFalse => cases heq

lemma within_setDensePrefix (h : s.newTop ≤ s.top) (heq : s.setDensePrefix n = .ok s') :
    s'.Within ∧ s'.densePrefix = n := by
  rw [setDensePrefix] at heq
  split at heq
  case isTrue hle =>
    cases heq
    exact ⟨⟨h, hle.1⟩, rfl⟩
  case isFalse => cases heq

lemma Within.recordStart (h : s.Within) (heq : s.recordStart n = .ok s') : s'.Within := by
  obtain ⟨starts, -, heq⟩ := bind_eq_ok_iff.1 heq
  cases heq
  exact ⟨h.newTop_le, h.bottom_le⟩

end Space

/-- The regions of words of the zone belong to it. -/
lemma Zone.owns_of_words {W a b : ℕ} (hW : 0 < W) (h1 : z.first * W ≤ a) (h2 : b < z.last * W)
    (ha : a / W ≤ r) (hb : r ≤ b / W) :
    z.Owns r :=
  ⟨((Nat.le_div_iff_mul_le hW).2 h1).trans ha, hb.trans_lt (div_lt_of_lt_mul h2)⟩

namespace RegionTable

variable {t : RegionTable} {addr : ℕ}

lemma regionOf_spec (heq : t.regionOf addr = .ok r) :
    t.covered.start ≤ addr ∧ (addr - t.covered.start) / 8 / t.geometry.regionWords = r := by
  obtain ⟨word, hword, heq⟩ := bind_eq_ok_iff.1 heq
  obtain ⟨offset, hoffset, hword⟩ := bind_eq_ok_iff.1 hword
  obtain ⟨stop, -, hoffset⟩ := bind_eq_ok_iff.1 hoffset
  rw [pure_eq_ok_iff] at hword heq
  split at hoffset
  case isFalse => cases hoffset
  case isTrue hin =>
    cases hoffset
    rw [t.geometry.shiftRight_regionLog, ← hword] at heq
    exact ⟨hin.1, heq⟩

/-- The region of an address above the bottom of the zone. -/
lemma first_le_of_regionOf (heq : t.regionOf addr = .ok r)
    (h : t.covered.addr (z.first * t.geometry.regionWords) ≤ addr) :
    z.first ≤ r := by
  obtain ⟨hstart, rfl⟩ := regionOf_spec heq
  rw [Extent.addr_eq] at h
  exact (Nat.le_div_iff_mul_le t.geometry.regionWords_pos).2 (by omega)

/-- The region of an address of the zone belongs to it. -/
lemma owns_of_regionOf (heq : t.regionOf addr = .ok r)
    (h1 : t.covered.addr (z.first * t.geometry.regionWords) ≤ addr)
    (h2 : addr < t.covered.addr (z.last * t.geometry.regionWords)) : z.Owns r := by
  refine ⟨first_le_of_regionOf heq h1, ?_⟩
  obtain ⟨hstart, rfl⟩ := regionOf_spec heq
  rw [Extent.addr_eq] at h2
  exact div_lt_of_lt_mul (by omega)

end RegionTable

namespace Heap

/-- What is planned of space `i` lies in it. -/
def SpaceWithin {μ : Type} (i : ℕ) (h : Heap μ) : Prop :=
  ∃ s, h.spaces[i]? = some s ∧ s.Within

variable {μ α β γ : Type} {h h₁ g g₁ : Heap μ} {s : Space}

/-! ## Heaps that are the same in a part -/

/-- The heaps hold the same in the regions with the property `P`, and have the same spaces with the
property `Q`. -/
structure SameOn (P Q : ℕ → Prop) (h g : Heap μ) : Prop where
  bitmap : h.bitmap.SameOn (fun w => P (w / h.table.geometry.regionWords)) g.bitmap
  table : h.table.SameOn P g.table
  length_eq : g.spaces.length = h.spaces.length
  spaces : ∀ j, Q j → g.spaces[j]? = h.spaces[j]?

/-- The heaps hold the same outside of space `i`, which lies over the zone. -/
def SameElsewhere (i : ℕ) (z : Zone) : (h g : Heap μ) → Prop :=
  SameOn (fun r => ¬z.Owns r) (· ≠ i)

/-- Space `i` lies over the zone in both heaps, which hold the same in it. -/
structure Twins (i : ℕ) (z : Zone) (h g : Heap μ) : Prop where
  bitmap : h.bitmap.SameOn (fun w => z.Owns (w / h.table.geometry.regionWords)) g.bitmap
  table : h.table.Mirrors z.Owns g.table
  space : g.spaces[i]? = h.spaces[i]?
  laid : h.table.Laid
  bitmap_covered : h.bitmap.covered = h.table.covered
  ordered : z.Ordered h.table.geometry.regionWords h.table.covered.words
  liesOver : ∃ s, h.spaces[i]? = some s ∧ s.Over h.table.covered h.table.geometry.regionWords z

lemma SameOn.refl (P Q : ℕ → Prop) (hbegins : h.bitmap.begins.Valid) (hends : h.bitmap.ends.Valid) :
    h.SameOn P Q h :=
  ⟨.refl _ hbegins hends, .refl P h.table, rfl, fun _ _ => rfl⟩

/-- The image and the log do not matter. -/
lemma SameOn.of_eq {P Q : ℕ → Prop} {h' : Heap μ} (hsame : h.SameOn P Q h₁)
    (hbitmap : h'.bitmap = h₁.bitmap) (htable : h'.table = h₁.table)
    (hspaces : h'.spaces = h₁.spaces) : h.SameOn P Q h' :=
  ⟨hbitmap ▸ hsame.bitmap, htable ▸ hsame.table, hspaces ▸ hsame.length_eq, hspaces ▸ hsame.spaces⟩

lemma SameOn.trans {P Q : ℕ → Prop} {h' h'' : Heap μ} (hsame : h.SameOn P Q h')
    (hsame' : h'.SameOn P Q h'') :
    h.SameOn P Q h'' where
  bitmap := hsame.bitmap.trans (hsame.table.shape.geometry ▸ hsame'.bitmap)
  table := hsame.table.trans hsame'.table
  length_eq := hsame'.length_eq.trans hsame.length_eq
  spaces j hj := (hsame'.spaces j hj).trans (hsame.spaces j hj)

namespace Twins

variable (ht : Twins i z h g)
include ht

lemma bitmap_same (P : ℕ → Prop) : h.bitmap.SameOn P h.bitmap :=
  .refl P ht.bitmap.begins.valid ht.bitmap.ends.valid

lemma same (P Q : ℕ → Prop) : h.SameOn P Q h :=
  .refl P Q ht.bitmap.begins.valid ht.bitmap.ends.valid

lemma bitOf_addr (hx : x ≤ h.table.covered.words) :
    h.bitmap.bitOf (h.table.covered.addr x) = .ok x := by
  rw [← ht.bitmap_covered] at hx ⊢
  exact MarkBitmap.bitOf_addr (ht.bitmap_covered ▸ ht.laid.covered_lt) hx

lemma withLog (log log' : List LogRecord) : Twins i z { h with log } { g with log := log' } :=
  ⟨ht.bitmap, ht.table, ht.space, ht.laid, ht.bitmap_covered, ht.ordered, ht.liesOver⟩

lemma withImage (image image' : μ) : Twins i z { h with image } { g with image := image' } :=
  ⟨ht.bitmap, ht.table, ht.space, ht.laid, ht.bitmap_covered, ht.ordered, ht.liesOver⟩

lemma withTable {t t' : RegionTable} (htable : t.Mirrors z.Owns t') (hshape : h.table.SameShape t) :
    Twins i z { h with table := t } { g with table := t' } where
  bitmap := by
    rw [hshape.geometry]
    exact ht.bitmap
  table := htable
  space := ht.space
  laid := hshape.laid ht.laid
  bitmap_covered := ht.bitmap_covered.trans hshape.covered.symm
  ordered := by
    rw [hshape.geometry, hshape.covered]
    exact ht.ordered
  liesOver := by
    rw [hshape.geometry, hshape.covered]
    exact ht.liesOver

lemma withBitmap {m m' : MarkBitmap} (hcovered : m.covered = h.bitmap.covered)
    (hbitmap : m.SameOn (fun w => z.Owns (w / h.table.geometry.regionWords)) m') :
    Twins i z { h with bitmap := m } { g with bitmap := m' } :=
  ⟨hbitmap, ht.table, ht.space, ht.laid, hcovered.trans ht.bitmap_covered, ht.ordered, ht.liesOver⟩

lemma withSpace (hspace : h.spaces[i]? = some s) {s' : Space}
    (hs' : s'.Over h.table.covered h.table.geometry.regionWords z) :
    Twins i z (h.setSpace i s') (g.setSpace i s') where
  bitmap := ht.bitmap
  table := ht.table
  space := (space_setSpace_self (ht.space.trans hspace)).trans (space_setSpace_self hspace).symm
  laid := ht.laid
  bitmap_covered := ht.bitmap_covered
  ordered := ht.ordered
  liesOver := ⟨s', space_setSpace_self hspace, hs'⟩

end Twins

/-! ## Actions that do the same -/

/-- The actions answer the same and leave the part of space `i` the same in both heaps, or end with
the same fault; the first one changes nothing outside of the part, and its answer and its heap
satisfy `post`. -/
def Local (i : ℕ) (z : Zone) (act act' : HeapAction μ α) (h g : Heap μ)
    (post : α → Heap μ → Prop) : Prop :=
  Alike (fun out out' => out'.1 = out.1 ∧ Twins i z out.2 out'.2 ∧ h.SameElsewhere i z out.2
    ∧ post out.1 out.2)
    (act h) (act' g)

variable {act act' : HeapAction μ α} {next next' : α → HeapAction μ β} {post : α → Heap μ → Prop}
  {goal : β → Heap μ → Prop}

namespace Local

lemma mono {post' : α → Heap μ → Prop} (hact : Local i z act act' h g post)
    (himp : ∀ a h', post a h' → post' a h') :
    Local i z act act' h g post' :=
  Alike.mono hact fun _ _ rel => ⟨rel.1, rel.2.1, rel.2.2.1, himp _ _ rel.2.2.2⟩

lemma bind (hact : Local i z act act' h g post)
    (hnext : ∀ a h₁ g₁, Twins i z h₁ g₁ → h.SameElsewhere i z h₁ → post a h₁ → Local i z (next a)
      (next' a) h₁ g₁ goal) :
    Local i z (act >>= next) (act' >>= next') h g goal := by
  refine Alike.bind hact fun out out' _ rel => ?_
  obtain ⟨a, h₁⟩ := out
  obtain ⟨a', g₁⟩ := out'
  obtain ⟨rfl, htwins, hrest, hpost⟩ := rel
  exact Alike.mono (hnext a' h₁ g₁ htwins hrest hpost) fun _ _ rel =>
    ⟨rel.1, rel.2.1, hrest.trans rel.2.2.1, rel.2.2.2⟩

lemma get {next next' : Heap μ → HeapAction μ β} (hnext : Local i z (next h) (next' g) h g goal) :
    Local i z (get >>= next) (get >>= next') h g goal :=
  hnext

lemma check {y y' : Except Fault γ} {next : γ → HeapAction μ β} {next' : γ → HeapAction μ β}
    (heq : y' = y) (hnext : ∀ c, y = .ok c → Local i z (next c) (next' c) h g goal) :
    Local i z (check y >>= next) (check y' >>= next') h g goal := by
  subst heq
  cases y' with
  | error fault => exact .error fault
  | ok c => exact hnext c rfl

/-- What is read stands in a relation. -/
lemma checkRel {γ' : Type} {R : γ → γ' → Prop} {y : Except Fault γ} {y' : Except Fault γ'}
    {next : γ → HeapAction μ β} {next' : γ' → HeapAction μ β} (hy : Alike R y y')
    (hnext : ∀ c c', R c c' → Local i z (next c) (next' c') h g goal) :
    Local i z (Heap.check y >>= next) (Heap.check y' >>= next') h g goal := by
  cases hy with
  | error fault => exact .error fault
  | ok rel => exact hnext _ _ rel

lemma ite {c : Prop} [Decidable c] {act₁ act₁' : HeapAction μ α}
    (hthen : c → Local i z act act' h g post) (helse : ¬c → Local i z act₁ act₁' h g post) :
    Local i z (if c then act else act₁)
      (if c then act' else act₁') h g post := by
  by_cases hc : c
  · simpa only [if_pos hc] using hthen hc
  · simpa only [if_neg hc] using helse hc

end Local

namespace Twins

variable (ht : Twins i z h g)
include ht

lemma pure {a : α} (hpost : post a h) : Local i z (pure a) (pure a) h g post :=
  .ok ⟨rfl, ht, ht.same .., hpost⟩

lemma check {y y' : Except Fault α} (heq : y' = y) (hpost : ∀ a, y = .ok a → post a h) :
    Local i z (check y) (check y') h g post := by
  subst heq
  cases y' with
  | error fault => exact .error fault
  | ok a => exact .ok ⟨rfl, ht, ht.same .., hpost a rfl⟩

lemma report (record record' : LogRecord) :
    Local i z (report record) (report record') h g fun _ h₁ =>
      h₁.table = h.table ∧ h₁.bitmap = h.bitmap
    ∧ h₁.spaces = h.spaces :=
  .ok ⟨rfl, ht.withLog .., (ht.same ..).of_eq rfl rfl rfl, rfl, rfl, rfl⟩

/-- Exchanging the tables for others that are the same in the part. -/
lemma setTable {t t' : RegionTable} (htable : t.Mirrors z.Owns t')
    (hrest : h.table.SameOn (fun r => ¬z.Owns r) t) :
    Local i z (modify fun h => { h with table := t }) (modify fun h => { h with table := t' }) h g
      fun _ h₁ => h₁ = { h with table := t } :=
  .ok ⟨rfl, ht.withTable htable hrest.shape, ⟨ht.bitmap_same _, hrest, rfl, fun _ _ => rfl⟩, rfl⟩

lemma onTable {f f' : RegionTable → Except Fault RegionTable}
    (hf : RegionTable.Follows z.Owns h.table (f h.table) (f' g.table)) :
    Local i z (onTable f) (onTable f') h g fun _ h₁ =>
      h₁.bitmap = h.bitmap ∧ h₁.spaces = h.spaces :=
  .get (.checkRel hf fun _ _ rel =>
    .ok ⟨rfl, ht.withTable rel.1 rel.2.shape,
      ⟨ht.bitmap_same _, rel.2, rfl, fun _ _ => rfl⟩, rfl, rfl⟩)

lemma setBitmap {m m' : MarkBitmap}
    (hbitmap : m.SameOn (fun w => z.Owns (w / h.table.geometry.regionWords)) m')
    (hrest : h.bitmap.SameOn (fun w => ¬z.Owns (w / h.table.geometry.regionWords)) m) :
    Local i z (set { h with bitmap := m }) (set { g with bitmap := m' }) h g fun _ h₁ =>
      h₁ = { h with bitmap := m } :=
  .ok ⟨rfl, ht.withBitmap hrest.covered hbitmap, ⟨hrest, .refl _ _, rfl, fun _ _ => rfl⟩, rfl⟩

lemma onImage {f : μ → Except Fault μ} {image image' : μ} (himage : f h.image = .ok image)
    (himage' : f g.image = .ok image') :
    Local i z (onImage f) (onImage f) h g fun _ h₁ => h₁ = { h with image } := by
  refine .get ?_
  rw [himage, himage']
  exact .ok ⟨rfl, ht.withImage .., (ht.same ..).of_eq rfl rfl rfl, rfl⟩

lemma space_eq : g.space i = h.space i := by
  obtain ⟨s, hspace, -⟩ := ht.liesOver
  rw [Heap.space_eq hspace, Heap.space_eq (ht.space.trans hspace)]

/-- Changing the space, which stays where it is. -/
lemma onSpace {f : Space → Except Fault Space} (hf : ∀ s s', h.spaces[i]? = some s →
      s.Over h.table.covered h.table.geometry.regionWords z → f s = .ok s'
      → s'.Over h.table.covered h.table.geometry.regionWords z) :
    Local i z (onSpace i f) (onSpace i f) h g fun _ h₁ => h₁.table = h.table ∧ h₁.bitmap = h.bitmap
      ∧ ∃ s s', h.spaces[i]? = some s ∧ f s = .ok s' ∧ h₁.spaces[i]? = some s' := by
  obtain ⟨s, hspace, hs⟩ := ht.liesOver
  refine .get (.check ht.space_eq fun s₁ hs₁ => ?_)
  rw [Heap.space_eq hspace] at hs₁
  cases hs₁
  refine .check rfl fun s' hs' => ?_
  refine .ok ⟨rfl, ht.withSpace hspace (hf s s' hspace hs hs'),
    ⟨ht.bitmap_same _, .refl _ _, ?_, fun j hj => ?_⟩, rfl, rfl, s, s', hspace, hs',
    space_setSpace_self hspace⟩
  · exact List.length_set
  · exact space_setSpace_of_ne (Ne.symm hj)

end Twins

/-! ## Live objects -/

/-- The live objects of the space are accounted in its regions. -/
lemma Twins.addLiveObjects (ht : Twins i z h g) (hm : g.bitmap.Marks objs)
    (hbounds : z.Bounds h.table.geometry.regionWords objs) :
    Local i z (addLiveObjects i) (addLiveObjects i) h g fun _ _ => True := by
  obtain ⟨s, hspace, hs⟩ := ht.liesOver
  have hW := h.table.geometry.regionWords_pos
  have hz := ht.ordered
  have hlast := hz.last_le
  have hcovered : g.bitmap.covered = h.table.covered := ht.bitmap.covered.trans ht.bitmap_covered
  have hholds : ∀ o ∈ objs, z.first * h.table.geometry.regionWords ≤ o.start → o.start < z.top →
      o.past ≤ z.top := by
    intro o ho h1 h2
    have hpos := hm.separate.start_lt_past ho
    have htop := hz.top_le_last
    rcases hbounds o ho with hholds | hmiss | hmiss
    · exact hholds.2
    · omega
    · omega
  have hlive := ht.bitmap.liveObjects_eq hm hz.first_le_top hz.top_le_last (hcovered ▸ hlast)
    (fun w h1 h2 => Zone.owns_of_words hW h1 h2 le_rfl le_rfl) fun o ho h1 h2 =>
      (hholds o ho h1 h2).trans hz.top_le_last
  obtain ⟨os, c, resume, heq, hchain, -, hlt⟩ :=
    hm.liveObjects_eq (hbounds.boundary_first hz) hz.first_le_top
    (by rw [hcovered]; exact hz.top_le_last.trans hlast)
  rw [hcovered, ← hs.bottom, ← hs.top] at hlive heq
  refine .get (.check ht.space_eq fun s₁ hs₁ => ?_)
  cases (Heap.space_eq hspace).symm.trans hs₁
  refine .check hlive.symm fun live hobjects => ?_
  cases (heq.symm.trans hlive.symm).trans hobjects
  refine (ht.onTable (ht.table.accountObjects fun o ho offset hoffset q h1 h2 => ?_)).bind
    fun _ h₁ g₁ ht₁ _ _ => ?_
  · obtain ⟨o', ho', rfl⟩ := List.mem_map.1 ho
    have hpast := hm.past_le o' (hchain.mem_of_mem ho')
    have hpos := hm.separate.start_lt_past (hchain.mem_of_mem ho')
    have hstart := (hchain.bounds hm.separate ho').1
    have hin := hholds o' (hchain.mem_of_mem ho') hstart (hlt o' ho')
    rw [hcovered] at hpast
    cases (ht.laid.wordOffset_addr (i := o'.start) (by omega)).symm.trans hoffset
    have htop := hz.top_le_last
    exact Zone.owns_of_words hW hstart (b := o'.past - 1) (by omega) h1 h2
  · refine (ht₁.onSpace fun s s' _ hs heq => ?_).mono fun _ _ _ => trivial
    cases heq
    exact ⟨hs.bottom, hs.limit, hs.top, hs.starts⟩

/-! ## Destinations -/

/-- The space is packed into itself from word `x` on. -/
lemma Twins.packSpace (ht : Twins i z h g) (hx : z.first * h.table.geometry.regionWords ≤ x)
    (hwords : x ≤ h.table.covered.words) :
    Local i z (packSpace i (h.table.covered.addr x))
      (packSpace i (h.table.covered.addr x)) h g fun _ h₁ =>
      ∃ s s' newTop, h.spaces[i]? = some s ∧ s.setNewTop newTop = .ok s'
        ∧ h₁.spaces[i]? = some s' := by
  obtain ⟨s, hspace, hs⟩ := ht.liesOver
  have hW := h.table.geometry.regionWords_pos
  refine .get (.check ht.space_eq fun s₁ hs₁ => ?_)
  cases (Heap.space_eq hspace).symm.trans hs₁
  refine (ht.report _ _).bind fun _ h₁ g₁ ht₁ _ ⟨htable, _, hspaces⟩ => ?_
  have hsummarize :=
    ht.table.summarize (a := h.table.covered.addr x) (b := s.limit) (c := h.table.covered.addr x)
      (d := s.top)
    (fun first last hfirst hlast q h1 h2 => ?_) fun addr q h1 h2 heq => ?_
  · refine .checkRel hsummarize fun ⟨packing, t⟩ ⟨packing', t'⟩ rel => ?_
    obtain ⟨rfl, hmirrors, hrest⟩ := rel
    refine (ht₁.setTable hmirrors (htable ▸ hrest)).bind fun _ h₂ g₂ ht₂ _ heq => ?_
    subst heq
    cases packing' with
    | stopped target source => exact .error _
    | fits newTop =>
      refine (ht₂.onSpace fun s s' _ hs heq => hs.setNewTop heq).mono
        fun _ h₃ ⟨_, _, s, s', h1, h2, h3⟩ => ?_
      exact ⟨s, s', newTop, hspaces ▸ h1, h2, h3⟩
  · cases (ht.laid.regionOf_addr hwords).symm.trans hfirst
    rw [hs.top] at hlast
    have hn :=
      RegionTable.regionUpTo_le (r := z.last) hlast (Extent.addr_le_addr.2 ht.ordered.top_le_last)
    exact ⟨((Nat.le_div_iff_mul_le hW).2 hx).trans h1, by omega⟩
  · rw [hs.limit] at h2
    exact RegionTable.owns_of_regionOf heq ((Extent.addr_le_addr.2 hx).trans h1) h2

/-- The space is planned into itself from its bottom. -/
lemma Twins.planFromBottom (ht : Twins i z h g) :
    Local i z (planFromBottom i) (planFromBottom i) h g fun _ h₁ => h₁.SpaceWithin i := by
  obtain ⟨s, hspace, hs⟩ := ht.liesOver
  refine .get (.check ht.space_eq fun s₁ hs₁ => ?_)
  cases (Heap.space_eq hspace).symm.trans hs₁
  rw [hs.bottom]
  refine (ht.packSpace le_rfl
    ((Nat.mul_le_mul_right _ ht.ordered.first_lt_last.le).trans ht.ordered.last_le)).bind
    fun _ h₁ g₁ ht₁ _ ⟨s, s', newTop, _, hnewTop, hspace₁⟩ => ?_
  refine (ht₁.onSpace fun s s' _ hs heq => hs.setDensePrefix heq).mono
    fun _ h₂ ⟨_, _, s₁, s₁', h1, h2, h3⟩ => ?_
  cases hspace₁.symm.trans h1
  exact ⟨s₁', h3, (Space.within_setDensePrefix (Space.newTop_le_top hnewTop) h2).1⟩

/-- The dense prefix of the space ends at one of its regions. -/
lemma Twins.computeDensePrefix (ht : Twins i z h g) (hin : h.SpaceWithin i) (limiter : Limiter)
    (maximum : Bool) :
    Local i z (computeDensePrefix i limiter maximum)
      (computeDensePrefix i limiter maximum) h g fun boundary h₁ =>
      (∃ k, z.Owns k ∧ boundary = h₁.table.covered.addr (k * h₁.table.geometry.regionWords))
        ∧ h₁.SpaceWithin i := by
  obtain ⟨s, hspace, hs⟩ := ht.liesOver
  obtain ⟨s', hspace', hin⟩ := hin
  cases hspace.symm.trans hspace'
  refine .get (.check ht.space_eq fun s₁ hs₁ => ?_)
  cases (Heap.space_eq hspace).symm.trans hs₁
  refine .ite (fun _ => ht.pure
    ⟨⟨z.first, ⟨le_rfl, ht.ordered.first_lt_last⟩, hs.bottom⟩, s, hspace, hin⟩) fun _ => ?_
  have hfirst : h.table.regionOf s.bottom = .ok z.first := by
    rw [hs.bottom, ht.laid.regionOf_addr ((Nat.mul_le_mul_right _ ht.ordered.first_lt_last.le).trans
      ht.ordered.last_le), Nat.mul_div_cancel _ h.table.geometry.regionWords_pos]
  have htop : s.top ≤ h.table.covered.addr (z.last * h.table.geometry.regionWords) := by
    rw [hs.top]
    exact Extent.addr_le_addr.2 ht.ordered.top_le_last
  refine .checkRel (ht.table.choosePrefix (fun q h1 h2 => ⟨h1, h2⟩) ht.ordered.first_lt_last hfirst
    (fun n hn => RegionTable.regionUpTo_le hn htop) fun n hn =>
      RegionTable.regionUpTo_le hn (hin.newTop_le.trans htop)) ?_
  rintro _ choice ⟨rfl, h1, h2⟩
  refine (ht.report _ _).bind fun _ h₁ g₁ ht₁ _ ⟨htable, _, hspaces⟩ => ?_
  refine ht₁.check (ht.table.regionStart?_eq _) fun boundary heq =>
    ⟨⟨choice.region, ⟨h1, h2⟩, ?_⟩, s, hspaces ▸ hspace, hin⟩
  rw [RegionTable.regionStart?] at heq
  split at heq
  · cases heq
    rw [htable, RegionTable.Laid.regionStart_eq]
  · cases heq

/-! ## The end of a dense prefix -/

variable [ObjectModel μ] {minimum : ℕ}

omit [ObjectModel μ] in
/-- An object of the zone is marked and accounted. -/
lemma Twins.addObject (ht : Twins i z h g) {words : ℕ}
    (hx : z.first * h.table.geometry.regionWords ≤ x)
    (hpast : x + words ≤ z.last * h.table.geometry.regionWords) (hpos : 0 < words) :
    Local i z (addObject (h.table.covered.addr x) words)
      (addObject (h.table.covered.addr x) words) h g
      fun _ h₁ => h₁.spaces = h.spaces := by
  have hW := h.table.geometry.regionWords_pos
  have hlast := ht.ordered.last_le
  have hmark := ht.bitmap.mark (h.table.covered.addr x) words fun first hfirst => by
    cases (ht.bitOf_addr (show x ≤ h.table.covered.words by omega)).symm.trans hfirst
    exact ⟨Zone.owns_of_words hW hx (by omega) le_rfl le_rfl,
      Zone.owns_of_words hW (show z.first * h.table.geometry.regionWords ≤ x + words - 1 by omega)
        (by omega) le_rfl le_rfl⟩
  refine .get (.checkRel hmark fun ⟨fresh, m⟩ ⟨fresh', m'⟩ rel => ?_)
  obtain ⟨rfl, hsame, hrest⟩ := rel
  refine Local.bind (ht.setBitmap hsame hrest) fun _ h₁ g₁ ht₁ _ hh₁ => ?_
  subst hh₁
  refine Local.bind (ht₁.onTable (ht₁.table.addObject fun offset hoffset q h1 h2 => ?_))
    fun _ h₂ g₂ ht₂ _ heq => ht₂.pure heq.2
  cases (ht₁.laid.wordOffset_addr (show x ≤ h.table.covered.words by omega)).symm.trans hoffset
  exact Zone.owns_of_words hW hx (b := x + words - 1) (by omega) h1 h2

/-- A filler of the zone is marked and accounted, and its start is recorded. -/
lemma Twins.addFiller (ht : Twins i z h g) (hcloses : ClosesGaps μ minimum)
    (hin : h.SpaceWithin i) {o : Run} (ho : o.start = h.table.covered.addr x)
    (hx : z.first * h.table.geometry.regionWords ≤ x)
    (hpast : x + o.words ≤ z.last * h.table.geometry.regionWords) (hpos : 0 < o.words)
    (hminimum : minimum ≤ o.words) :
    Local i z (addFiller i o) (addFiller i o) h g fun _ h₁ => h₁.SpaceWithin i := by
  obtain ⟨s, hspace, hin⟩ := hin
  obtain ⟨image, himage⟩ := hcloses.fillDead_eq h.image o.start o.words hminimum hpos
  obtain ⟨image', himage'⟩ := hcloses.fillDead_eq g.image o.start o.words hminimum hpos
  refine Local.bind (ht.onImage himage himage') fun _ h₁ g₁ ht₁ _ hh₁ => ?_
  subst hh₁
  rw [ho]
  refine Local.bind (ht₁.addObject hx hpast hpos) fun _ h₂ g₂ ht₂ _ hspaces => ?_
  refine (ht₂.onSpace fun s s' _ hs heq => hs.recordStart heq).mono
    fun _ h₃ ⟨_, _, s₁, s', h1, h2, h3⟩ => ?_
  cases (hspaces ▸ h1 : h.spaces[i]? = some s₁).symm.trans hspace
  exact ⟨s', h3, hin.recordStart h2⟩

/-- Dead space across the end of the dense prefix is filled. -/
lemma Twins.fillPrefixEnd (ht : Twins i z h g) (hcloses : ClosesGaps μ minimum)
    (hspace : h.spaces[i]? = some s) (hin : s.Within)
    (hdense : s.densePrefix = h.table.covered.addr (k * h.table.geometry.regionWords))
    (hfirst : z.first < k) (hlast : k < z.last) :
    Local i z (fillPrefixEnd i) (fillPrefixEnd i) h g fun _ h₁ => h₁.SpaceWithin i := by
  have hW := h.table.geometry.regionWords_pos
  obtain ⟨s', hspace', hs⟩ := ht.liesOver
  cases hspace.symm.trans hspace'
  have hwords := ht.ordered.last_le
  have hlt : z.first * h.table.geometry.regionWords < k * h.table.geometry.regionWords :=
    Nat.mul_lt_mul_of_pos_right hfirst hW
  have hlt' : k * h.table.geometry.regionWords < z.last * h.table.geometry.regionWords :=
    Nat.mul_lt_mul_of_pos_right hlast hW
  have hcovered := ht.bitmap_covered
  refine .get (.check ht.space_eq fun s₁ hs₁ => ?_)
  cases (Heap.space_eq hspace).symm.trans hs₁
  have hbit := ht.bitOf_addr (x := k * h.table.geometry.regionWords) (by omega)
  have hfiller := prefixFiller (s := s) (n := z.top) ht.table.toSameOn ht.bitmap
    ((hcloses.minimum_eq _).trans (hcloses.minimum_eq _).symm)
    (by rw [hcovered]; exact ht.laid.covered_lt) (by rw [hcovered]; exact hwords)
      (by rw [hcovered]; exact hs.bottom)
    (by rw [hcovered]; exact hs.top) ht.ordered.top_le_last hlt hlt' (fun r hr => ?_)
    fun w h1 h2 => Zone.owns_of_words hW h1 h2 le_rfl le_rfl
  · rw [hdense]
    refine .check (ht.bitmap.bitOf_eq _) fun bit hbit' => ?_
    cases hbit.symm.trans hbit'
    rw [hcovered] at hfiller
    refine .checkRel hfiller fun filler filler' rel => ?_
    obtain ⟨rfl, hfiller⟩ := rel
    cases filler' with
    | none => exact ht.pure ⟨s, hspace, hin⟩
    | some o =>
      obtain ⟨x, ho, hx, hpast, hpos, hminimum⟩ := hfiller o rfl
      refine Local.bind (ht.report _ _) fun _ h₁ g₁ ht₁ _ ⟨htable, _, hspaces⟩ => ?_
      rw [hcloses.minimum_eq] at hminimum
      rw [← htable] at ho hx hpast
      exact ht₁.addFiller hcloses ⟨s, hspaces ▸ hspace, hin⟩ ho hx hpast hpos hminimum
  · rw [hcovered, ht.laid.regionOf_addr (by omega), Nat.mul_div_cancel _ hW] at hr
    cases hr
    exact ⟨hfirst.le, hlast⟩

/-- The space is planned around a dense prefix that ends at one of its regions. -/
lemma Twins.planAround (ht : Twins i z h g) (hcloses : ClosesGaps μ minimum) (hin : h.SpaceWithin i)
    (hk : z.Owns k) :
    Local i z (planAround i (h.table.covered.addr (k * h.table.geometry.regionWords)))
      (planAround i (h.table.covered.addr (k * h.table.geometry.regionWords))) h g fun _ h₁ =>
        h₁.SpaceWithin i := by
  have hW := h.table.geometry.regionWords_pos
  obtain ⟨s, hspace, hs⟩ := ht.liesOver
  obtain ⟨s', hspace', hin⟩ := hin
  cases hspace.symm.trans hspace'
  have hfirst : z.first * h.table.geometry.regionWords ≤ k * h.table.geometry.regionWords :=
    Nat.mul_le_mul_right _ hk.1
  have hlast : k * h.table.geometry.regionWords ≤ h.table.covered.words :=
    (Nat.mul_le_mul_right _ hk.2.le).trans ht.ordered.last_le
  refine .get (.check ht.space_eq fun s₁ hs₁ => ?_)
  cases (Heap.space_eq hspace).symm.trans hs₁
  refine Local.bind (ht.onSpace fun s s' _ hs heq => hs.setDensePrefix heq)
    fun _ h₁ g₁ ht₁ hrest₁ ⟨htable, _, s₁, s', h1, h2, h3⟩ => ?_
  cases hspace.symm.trans h1
  obtain ⟨hin₁, hdense⟩ := Space.within_setDensePrefix hin.newTop_le h2
  refine .ite (fun hne => ?_) fun _ => ht₁.pure ⟨s', h3, hin₁⟩
  have hlt : z.first < k := by
    refine lt_of_le_of_ne hk.1 fun heq => hne ?_
    rw [hs.bottom, heq]
  refine Local.bind (ht₁.fillPrefixEnd hcloses h3 hin₁ (by rw [hdense, htable]) hlt hk.2)
    fun _ h₂ g₂ ht₂ hrest₂ hin₂ => ?_
  have hcovered : h₂.table.covered = h.table.covered :=
    hrest₂.table.shape.covered.trans (by rw [htable])
  have hgeometry : h₂.table.geometry = h.table.geometry :=
    hrest₂.table.shape.geometry.trans (by rw [htable])
  rw [hs.bottom, ← hcovered, ← hgeometry]
  rw [← hcovered, ← hgeometry] at hlast
  rw [← hgeometry] at hfirst
  refine Local.bind (ht₂.onTable (ht₂.table.keepInPlace fun first last h1 h2 q hq1 hq2 => ?_))
    fun _ h₃ g₃ ht₃ hrest₃ ⟨_, hspaces⟩ => ?_
  · cases (ht₂.laid.regionOf_addr (hfirst.trans hlast)).symm.trans h1
    cases (ht₂.laid.regionOf_addr hlast).symm.trans h2
    rw [Nat.mul_div_cancel _ h₂.table.geometry.regionWords_pos] at hq1 hq2
    exact ⟨hq1, hq2.trans hk.2⟩
  · have hshape := hrest₃.table.shape
    rw [← hshape.covered, ← hshape.geometry]
    rw [← hshape.covered, ← hshape.geometry] at hlast
    rw [← hshape.geometry] at hfirst
    refine (ht₃.packSpace hfirst hlast).mono fun _ h₄ ⟨s₃, s₄, newTop, h1, h2, h3⟩ => ⟨s₄, h3, ?_⟩
    obtain ⟨s₂, hspace₂, hin₂⟩ := hin₂
    cases (hspaces ▸ h1 : h₂.spaces[i]? = some s₃).symm.trans hspace₂
    exact Space.within_setNewTop hin₂.bottom_le h2

lemma Twins.planAroundPrefix (ht : Twins i z h g) (hcloses : ClosesGaps μ minimum)
    (hin : h.SpaceWithin i) (limiter : Limiter) (maximum : Bool) :
    Local i z (planAroundPrefix i limiter maximum)
      (planAroundPrefix i limiter maximum) h g fun _ h₁ => h₁.SpaceWithin i := by
  refine .get (.check ht.space_eq fun s _ => .ite (fun _ => ?_) fun _ => ht.pure hin)
  refine (ht.computeDensePrefix hin limiter maximum).bind
    fun boundary h₁ g₁ ht₁ _ ⟨⟨k, hk, hboundary⟩, hin₁⟩ => ?_
  subst hboundary
  refine (ht₁.planAround hcloses hin₁ hk).bind fun _ h₂ g₂ ht₂ _ hin₂ => ?_
  refine .get (.check ht₂.space_eq fun s _ => (ht₂.report _ _).mono fun _ h₃ ⟨_, _, hspaces⟩ => ?_)
  obtain ⟨s, hspace, hin⟩ := hin₂
  exact ⟨s, hspaces ▸ hspace, hin⟩

/-! ## Block offsets -/

omit [ObjectModel μ] in
lemma Twins.fillSpaceBlocks (ht : Twins i z h g) (hin : h.SpaceWithin i) :
    Local i z (fillSpaceBlocks i) (fillSpaceBlocks i) h g fun _ _ => True := by
  obtain ⟨s, hspace, hs⟩ := ht.liesOver
  obtain ⟨s', hspace', hin⟩ := hin
  cases hspace.symm.trans hspace'
  refine .get (.check ht.space_eq fun s₁ hs₁ => ?_)
  cases (Heap.space_eq hspace).symm.trans hs₁
  refine .check (ht.table.shape.regionOf_eq _) fun beg hbeg =>
    .check (ht.table.shape.regionUpTo_eq _) fun stop hstop => ?_
  refine (ht.onTable (ht.table.fillBlocksFrom ht.laid ht.bitmap ht.bitmap_covered
    fun q h1 h2 => ?_)).mono fun _ _ _ => trivial
  have htop : s.top ≤ h.table.covered.addr (z.last * h.table.geometry.regionWords) := by
    rw [hs.top]
    exact Extent.addr_le_addr.2 ht.ordered.top_le_last
  have hstop := RegionTable.regionUpTo_le hstop htop
  have hbeg :=
    RegionTable.first_le_of_regionOf (z := z) hbeg (by rw [← hs.bottom]; exact hin.bottom_le)
  exact ⟨hbeg.trans h1, by omega⟩

/-! ## The job -/

/-- Planning a space does the same to it in both heaps, and nothing to anything else. -/
theorem planSpace_local (ht : Twins i z h g) (hcloses : ClosesGaps μ minimum)
    (hm : g.bitmap.Marks objs) (hbounds : z.Bounds h.table.geometry.regionWords objs)
    (limiter : Limiter) (maximum : Bool) :
    Local i z (planSpace limiter maximum i) (planSpace limiter maximum i) h g fun _ _ => True := by
  refine (ht.addLiveObjects hm hbounds).bind fun _ h₁ g₁ ht₁ _ _ => ?_
  refine ht₁.planFromBottom.bind fun _ h₂ g₂ ht₂ _ hin₂ => ?_
  exact (ht₂.planAroundPrefix hcloses hin₂ limiter maximum).bind fun _ h₃ g₃ ht₃ _ hin₃ =>
    ht₃.fillSpaceBlocks hin₃

end Heap

end MarkCompact
