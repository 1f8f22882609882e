import MarkCompact.Proofs.Choosing
import MarkCompact.Proofs.Parts

/-!
# What is read of a part

A space is planned by what is read of its own part of the tables: the objects that start in it, the
regions that a dense prefix is chosen from, and the dead space across the end of the prefix.  Two
heaps that are the same in the part answer alike, also where a search goes on up to the end of the
bitmap, for it stops at an object of the part.

Main statements: `MarkBitmap.SameOn.liveObjects_eq`, `RegionTable.SameOn.choosePrefix` and
`Heap.prefixFiller`.
-/

namespace MarkCompact

variable {P : ℕ → Prop} {a b c i n r : ℕ} {objs : List Span}

/-! ## Bits -/

lemma Bitset.firstIn_le (s : Bitset) (a b : ℕ) : s.firstIn a b ≤ b := by
  rw [firstIn]
  split
  · exact le_rfl
  · dsimp only
    split
    · exact min_le_right ..
    · exact le_rfl

namespace Bitset.SameOn

variable {s s' : Bitset}

lemma read_eq (h : s.SameOn P s') (hi : P i) : s'.read i = s.read i := by
  rw [Bitset.read, Bitset.read, h.size_eq, h.mem_eq i hi]

lemma checkRange_eq (h : s.SameOn P s') (a b : ℕ) : s'.checkRange a b = s.checkRange a b := by
  rw [Bitset.checkRange, Bitset.checkRange, h.size_eq]

/-- A search that finds a bit of the part in one set finds it in the other one. -/
lemma firstIn_eq_of_lt (h : s.SameOn P s') (hab : a ≤ b) (hlt : s'.firstIn a b < c) (hcb : c ≤ b)
    (hP : ∀ i, a ≤ i → i < c → P i) :
    s.firstIn a b = s'.firstIn a b := by
  have hfound' := firstIn_spec h.valid' hab
  refine (firstIn_spec h.valid hab).eq_of_holds ?_ hfound'.start_le (by omega) fun j h1 h2 => ?_
  · rw [← h.mem_eq _ (hP _ hfound'.start_le hlt)]
    exact hfound'.holds (by omega)
  · rw [← h.mem_eq j (hP j h1 (by omega))]
    exact hfound'.before j h1 h2

lemma lastIn_eq (h : s.SameOn P s') (hP : ∀ i, a ≤ i → i < b → P i) :
    s'.lastIn a b = s.lastIn a b := by
  obtain ⟨hsome, hnone⟩ := lastIn_spec h.valid a b
  obtain ⟨hsome', hnone'⟩ := lastIn_spec h.valid' a b
  cases heq : s.lastIn a b with
  | none =>
    cases heq' : s'.lastIn a b with
    | none => rfl
    | some j =>
      obtain ⟨h1, h2, hmem, -⟩ := hsome' j heq'
      exact absurd (h.mem_eq j (hP j h1 h2) ▸ hmem) (hnone heq j h1 h2)
  | some i =>
    obtain ⟨h1, h2, hmem, hafter⟩ := hsome i heq
    cases heq' : s'.lastIn a b with
    | none => exact absurd (h.mem_eq i (hP i h1 h2) ▸ hmem) (hnone' heq' i h1 h2)
    | some j =>
      obtain ⟨h1', h2', hmem', hafter'⟩ := hsome' j heq'
      rcases lt_trichotomy i j with hlt | rfl | hgt
      · exact absurd (h.mem_eq j (hP j h1' h2') ▸ hmem') (hafter j hlt h2')
      · rfl
      · exact absurd ((h.mem_eq i (hP i h1 h2)).symm ▸ hmem) (hafter' i hgt h2)

end Bitset.SameOn

lemma MarkBitmap.firstBegin_le {m : MarkBitmap} {addr stop next : ℕ} (ha : m.bitOf addr = .ok a)
    (hb : m.bitOf stop = .ok b) (heq : m.firstBegin addr stop = .ok next) :
    ∃ x, next = m.covered.addr x ∧ x ≤ b := by
  rw [firstBegin, ha, ok_bind, hb, ok_bind] at heq
  obtain ⟨bit, hbit, heq⟩ := bind_eq_ok_iff.1 heq
  obtain ⟨_, hrange, hbit⟩ := bind_eq_ok_iff.1 hbit
  cases hbit
  cases heq
  exact ⟨_, rfl, m.begins.firstIn_le a b⟩

namespace MarkBitmap.SameOn

variable {m m' : MarkBitmap} {addr stop first limit : ℕ}

lemma firstBegin_eq (h : m.SameOn P m')
    (hP : ∀ first last, m.bitOf addr = .ok first → m.bitOf stop = .ok last →
      ∀ w, first ≤ w → w < last → P w) : m'.firstBegin addr stop = m.firstBegin addr stop := by
  rw [firstBegin, firstBegin, h.bitOf_eq, h.bitOf_eq]
  cases hfirst : m.bitOf addr with
  | error fault => rfl
  | ok first =>
    cases hlast : m.bitOf stop with
    | error fault => rfl
    | ok last =>
      simp only [ok_bind, Bitset.firstIn?, h.begins.checkRange_eq,
        h.begins.firstIn_eq (hP first last hfirst hlast), addrOf, h.covered]

/-- The objects that start in the part and do not reach out of it are listed in both bitmaps. -/
lemma listObjects_eq (h : m.SameOn P m') (hm : m'.Marks objs) (met : List Run) (hstop : stop ≤ c)
    (hc : c ≤ m'.covered.words) (hP : ∀ w, first ≤ w → w < c → P w)
    (hin : ∀ o ∈ objs, first ≤ o.start → o.start < stop → o.past ≤ c) :
    m.listObjects stop limit first met = m'.listObjects stop limit first met := by
  induction limit generalizing first met with
  | zero => rfl
  | succ limit ih =>
    rw [listObjects, listObjects]
    by_cases hend : stop ≤ first
    · rw [if_pos hend, if_pos hend]
    rw [if_neg hend, if_neg hend]
    have hbegins := h.begins.firstIn_eq (a := first) (b := stop) fun w h1 h2 => hP w h1 (by omega)
    have hfound := hm.firstIn_begins (a := first) (b := stop) (by omega)
    simp only [← hbegins]
    generalize m'.begins.firstIn first stop = beg at hfound ⊢
    by_cases hlast : stop ≤ beg
    · rw [if_pos hlast, if_pos hlast]
    rw [if_neg hlast, if_neg hlast]
    obtain ⟨o, ho, rfl⟩ := hfound.holds (by omega)
    have hpos := hm.separate.start_lt_past ho
    have hpast := hin o ho hfound.start_le (by omega)
    have hsize : m.size = m'.size := h.begins.size_eq.symm
    have hends' : m'.ends.firstIn o.start m'.size = o.past - 1 := by
      rw [hm.firstIn_ends ho (Span.covers_start (hm.separate.words_pos o ho))
        (by rw [hm.size_eq]; omega), hm.size_eq]
      omega
    have hends :=
      h.ends.firstIn_eq_of_lt (a := o.start) (b := m'.size) (c := c) (by rw [hm.size_eq]; omega)
      (by rw [hends']; omega) (by rw [hm.size_eq]; exact hc) fun w h1 h2 =>
        hP w (hfound.start_le.trans h1) h2
    have hrun : m.runOf o.start (o.past - 1) = m'.runOf o.start (o.past - 1) := by
      rw [runOf, runOf, addrOf, addrOf, h.covered]
    simp only [hsize, hends, hends', addrOf, h.covered, hrun]
    by_cases hsize' : m'.size ≤ o.past - 1
    · rw [if_pos hsize', if_pos hsize']
    · rw [if_neg hsize', if_neg hsize']
      exact ih _ (fun w h1 h2 => hP w (by have := hfound.start_le; omega) h2)
        fun o' ho' h1 h2 => hin o' ho' (by have := hfound.start_le; omega) h2

lemma liveObjects_eq (h : m.SameOn P m') (hm : m'.Marks objs) (hab : a ≤ b) (hbc : b ≤ c)
    (hc : c ≤ m'.covered.words) (hP : ∀ w, a ≤ w → w < c → P w)
    (hin : ∀ o ∈ objs, a ≤ o.start → o.start < b → o.past ≤ c) :
    m.liveObjects (m'.covered.addr a) (m'.covered.addr b) none
      = m'.liveObjects (m'.covered.addr a) (m'.covered.addr b) none := by
  have hsize : m.size = m'.size := h.begins.size_eq.symm
  rw [liveObjects, liveObjects, ← h.bitOf_eq, ← h.bitOf_eq, hm.bitOf_addr (by omega),
    hm.bitOf_addr (by omega)]
  simp only [ok_bind, hsize, h.listObjects_eq hm [] hbc hc hP hin, addrOf, h.covered]

end MarkBitmap.SameOn

/-! ## Choosing a dense prefix -/

namespace RegionTable

variable {t t' : RegionTable} {s : Space}
  {beg stop tries left right budget count best bottom top newTop : ℕ} {ratio : Float}

/-- What an address up to a region start reaches lies in front of the region. -/
lemma regionUpTo_le (hn : t.regionUpTo a = .ok n)
    (hle : a ≤ t.covered.addr (r * t.geometry.regionWords)) : n ≤ r := by
  obtain ⟨aligned, haligned, hn⟩ := bind_eq_ok_iff.1 hn
  obtain ⟨offset, hoffset, haligned⟩ := bind_eq_ok_iff.1 haligned
  obtain ⟨hstart, hoffset⟩ := Word.sub_eq_ok_iff.1 hoffset
  obtain ⟨-, haligned⟩ := Word.add_eq_ok_iff.1 haligned
  obtain ⟨word, hword, hn⟩ := bind_eq_ok_iff.1 hn
  obtain ⟨bytes, hbytes, hword⟩ := bind_eq_ok_iff.1 hword
  obtain ⟨stop, -, hbytes⟩ := bind_eq_ok_iff.1 hbytes
  rw [← haligned] at hbytes
  rw [pure_eq_ok_iff] at hword hn
  split at hbytes
  case isFalse => cases hbytes
  case isTrue =>
    rw [pure_eq_ok_iff] at hbytes
    rw [t.geometry.shiftRight_regionLog] at hn
    have hW := t.geometry.regionWords_pos
    have hbytesOf : t.geometry.regionBytes = 8 * t.geometry.regionWords := by
      rw [Geometry.regionBytes, bytesPerWord, Nat.mul_comm]
    have hraised := Nat.mod_le (offset + (t.geometry.regionBytes - 1)) wordValues
    have hdown :=
      Nat.div_add_mod ((offset + (t.geometry.regionBytes - 1)) % wordValues) t.geometry.regionBytes
    have hq : (offset + (t.geometry.regionBytes - 1)) % wordValues / t.geometry.regionBytes
        < r + 1 := by
      rw [Extent.addr_eq, ← Nat.mul_assoc, Nat.mul_right_comm, ← hbytesOf] at hle
      rw [Nat.div_lt_iff_lt_mul (by omega), Nat.succ_mul, Nat.mul_comm r]
      omega
    generalize (offset + (t.geometry.regionBytes - 1)) % wordValues / t.geometry.regionBytes
      = q at hdown hq
    have hword : word = t.geometry.regionWords * q := by
      rw [hbytesOf, Nat.mul_assoc] at hdown
      rw [bytesPerWord] at hword
      rw [hbytesOf] at hbytes
      omega
    rw [← hn, hword, Nat.mul_div_cancel_left _ hW]
    omega

namespace SameOn

variable (h : t.SameOn P t')
include h

lemma regionStart?_eq (r : ℕ) : t'.regionStart? r = t.regionStart? r := by
  rw [regionStart?, regionStart?, h.shape.geometry, h.shape.regionStart_eq]

lemma deadToLeft_eq (hr : P r) : t'.deadToLeft r = t.deadToLeft r := by
  rw [deadToLeft, deadToLeft, h.region_eq hr, h.regionStart?_eq]

lemma searchDeadSpace (hP : ∀ q, left ≤ q → q ≤ right → P q) (hle : left ≤ right) :
    Alike (fun r r' => r' = r ∧ left ≤ r ∧ r ≤ right) (t.searchDeadSpace tries left right)
      (t'.searchDeadSpace tries left right) := by
  induction tries generalizing left right with
  | zero => exact .ok ⟨rfl, le_rfl, hle⟩
  | succ tries ih =>
    rw [RegionTable.searchDeadSpace, RegionTable.searchDeadSpace]
    refine .ite (fun _ => .ok ⟨rfl, le_rfl, hle⟩) fun hlt => ?_
    dsimp only
    generalize hmiddle : left + (right - left) / 2 = middle
    refine .check (h.region_eq (hP middle (by omega) (by omega))) fun c _ =>
      .check (h.regionStart?_eq middle) fun start _ => ?_
    rw [h.shape.geometry]
    refine .ite (fun _ => .error _) fun _ => .ite (fun hleft => ?_) fun _ =>
      .ite (fun hright => ?_) fun _ => ?_
    · exact (ih (fun q h1 h2 => hP q h1 (by omega)) (by omega)).mono fun _ _ rel =>
        ⟨rel.1, rel.2.1, by omega⟩
    · exact (ih (fun q h1 h2 => hP q (by omega) h2) (by omega)).mono fun _ _ rel =>
        ⟨rel.1, by omega, rel.2.2⟩
    · exact .ok ⟨rfl, by omega, by omega⟩

lemma searchDeadWood (hP : ∀ q, left ≤ q → q ≤ right → P q) (hle : left ≤ right) :
    Alike (fun r r' => r' = r ∧ left ≤ r ∧ r ≤ right) (t.searchDeadWood budget tries left right)
      (t'.searchDeadWood budget tries left right) := by
  induction tries generalizing left right with
  | zero => exact .ok ⟨rfl, le_rfl, hle⟩
  | succ tries ih =>
    rw [RegionTable.searchDeadWood, RegionTable.searchDeadWood]
    refine .ite (fun _ => .ok ⟨rfl, le_rfl, hle⟩) fun hlt => ?_
    dsimp only
    generalize hmiddle : left + (right - left) / 2 = middle
    refine .check (h.deadToLeft_eq (hP middle (by omega) (by omega))) fun dead _ => ?_
    refine .ite (fun hleft => ?_) fun _ => .ite (fun hright => ?_) fun _ => ?_
    · exact (ih (fun q h1 h2 => hP q h1 (by omega)) (by omega)).mono fun _ _ rel =>
        ⟨rel.1, rel.2.1, by omega⟩
    · exact (ih (fun q h1 h2 => hP q (by omega) h2) (by omega)).mono fun _ _ rel =>
        ⟨rel.1, by omega, rel.2.2⟩
    · exact .ok ⟨rfl, by omega, by omega⟩

/-- The searches look at regions in front of `stop` only, and end there, unless they have nowhere to
go. -/
lemma firstDeadSpace (hP : ∀ q, beg ≤ q → q < n → P q) (hbeg : beg < n) (hstop : stop ≤ n) :
    Alike (fun r r' => r' = r ∧ beg ≤ r ∧ r < n) (t.firstDeadSpace beg stop)
      (t'.firstDeadSpace beg stop) := by
  rw [RegionTable.firstDeadSpace, RegionTable.firstDeadSpace]
  have hle : beg ≤ if beg < stop then stop - 1 else beg := by split <;> omega
  have hlt : (if beg < stop then stop - 1 else beg) < n := by split <;> omega
  exact (h.searchDeadSpace (fun q h1 h2 => hP q h1 (by omega)) hle).mono fun _ _ rel =>
    ⟨rel.1, rel.2.1, by omega⟩

lemma deadWoodLimit (hP : ∀ q, beg ≤ q → q < n → P q) (hbeg : beg < n) (hstop : stop ≤ n) :
    Alike (fun r r' => r' = r ∧ beg ≤ r ∧ r < n) (t.deadWoodLimit beg stop budget)
      (t'.deadWoodLimit beg stop budget) := by
  rw [RegionTable.deadWoodLimit, RegionTable.deadWoodLimit]
  have hle : beg ≤ if beg < stop then stop - 1 else beg := by split <;> omega
  have hlt : (if beg < stop then stop - 1 else beg) < n := by split <;> omega
  exact (h.searchDeadWood (fun q h1 h2 => hP q h1 (by omega)) hle).mono fun _ _ rel =>
    ⟨rel.1, rel.2.1, by omega⟩

lemma reclaimedRatio_eq (hr : P r) :
    t'.reclaimedRatio r bottom top newTop = t.reclaimedRatio r bottom top newTop := by
  rw [reclaimedRatio, reclaimedRatio, h.region_eq hr, h.regionStart?_eq]

lemma bestRegion (hP : ∀ q, r ≤ q → q < r + count → P q) :
    Alike (fun out out' => out' = out ∧ (out.1 = best ∨ r ≤ out.1 ∧ out.1 < r + count))
      (t.bestRegion bottom top newTop count r best ratio)
      (t'.bestRegion bottom top newTop count r best ratio) := by
  induction count generalizing r best ratio with
  | zero => exact .ok ⟨rfl, .inl rfl⟩
  | succ count ih =>
    rw [RegionTable.bestRegion, RegionTable.bestRegion]
    refine .check (h.reclaimedRatio_eq (hP r le_rfl (by omega))) fun candidate _ => ?_
    refine .ite (fun _ => ?_) fun _ => ?_
    · exact (ih fun q h1 h2 => hP q (by omega) (by omega)).mono fun _ _ rel => ⟨rel.1, by omega⟩
    · exact (ih fun q h1 h2 => hP q (by omega) (by omega)).mono fun _ _ rel => ⟨rel.1, by omega⟩

/-- The choice looks at the regions of a space only, and is one of them. -/
lemma choosePrefix {first : ℕ} {limiter : Limiter} (hP : ∀ q, first ≤ q → q < n → P q)
    (hlt : first < n) (hbottom : t.regionOf s.bottom = .ok first)
    (htop : ∀ k, t.regionUpTo s.top = .ok k → k ≤ n)
    (hnewTop : ∀ k, t.regionUpTo s.newTop = .ok k → k ≤ n) :
    Alike (fun choice choice' => choice' = choice ∧ first ≤ choice.region ∧ choice.region < n)
      (t.choosePrefix s limiter) (t'.choosePrefix s limiter) := by
  rw [RegionTable.choosePrefix, RegionTable.choosePrefix]
  refine .check (h.shape.regionOf_eq _) fun beg hbeg =>
    .check (h.shape.regionUpTo_eq _) fun topRegion htopRegion =>
    .check (h.shape.regionUpTo_eq _) fun newTopRegion hnewTopRegion => ?_
  cases hbottom.symm.trans hbeg
  refine (h.firstDeadSpace hP hlt (hnewTop _ hnewTopRegion)).bind fun full _ _ rel => ?_
  obtain ⟨rfl, hfull, hfull'⟩ := rel
  refine .check rfl fun live _ => .check rfl fun dead _ => ?_
  refine (h.deadWoodLimit (fun q h1 h2 => hP q (by omega) h2) hfull' (htop _ htopRegion)).bind
    fun limit _ _ rel => ?_
  obtain ⟨rfl, hlimit, hlimit'⟩ := rel
  refine (h.bestRegion fun q h1 h2 => hP q (by omega) (by omega)).bind fun best best' _ rel => ?_
  obtain ⟨rfl, hbest⟩ := rel
  have hregion : first ≤ best'.1 ∧ best'.1 < n := by omega
  exact .ok ⟨rfl, hregion⟩

end SameOn

end RegionTable

/-! ## The end of a dense prefix -/

namespace MarkBitmap.SameOn

variable {m m' : MarkBitmap} {bit bottom : ℕ}

lemma deadSpaceCrosses_eq (h : m.SameOn P m') (a : Region) (hbit : P bit) (hbefore : P (bit - 1)) :
    deadSpaceCrosses a bit m' = deadSpaceCrosses a bit m := by
  rw [deadSpaceCrosses, deadSpaceCrosses, h.begins.read_eq hbit, h.ends.read_eq hbefore]

lemma deadSpaceStart_eq (h : m.SameOn P m')
    (hP : ∀ first, m.bitOf bottom = .ok first → ∀ w, first ≤ w → w < bit → P w) :
    deadSpaceStart m' bottom bit = deadSpaceStart m bottom bit := by
  rw [deadSpaceStart, deadSpaceStart, h.bitOf_eq]
  cases hfirst : m.bitOf bottom with
  | error fault => rfl
  | ok first =>
    simp only [ok_bind, Bitset.lastIn?, h.ends.checkRange_eq, h.ends.lastIn_eq (hP first hfirst),
      addrOf, h.covered]

end MarkBitmap.SameOn

namespace Heap

variable {μ : Type} [ObjectModel μ] {h g : Heap μ} {s : Space} {lo k hi : ℕ}

omit [ObjectModel μ] in
/-- Where dead space runs across a region start, it starts in front of it. -/
lemma deadSpaceStart_spec {m : MarkBitmap} {a : Region} {start : ℕ} (hvalid : m.ends.Valid)
    (hlt : m.covered.start + m.covered.size < wordValues)
    (hcrosses : deadSpaceCrosses a k m = .ok true) (hlo : lo < k) (hk : k ≤ m.covered.words)
    (heq : deadSpaceStart m (m.covered.addr lo) k = .ok start) :
    ∃ x, start = m.covered.addr x ∧ lo ≤ x ∧ x < k := by
  have hend : ¬m.ends.mem (k - 1) := by
    rw [deadSpaceCrosses, if_neg (by omega)] at hcrosses
    split at hcrosses
    · cases hcrosses
    · obtain ⟨begins, -, hcrosses⟩ := bind_eq_ok_iff.1 hcrosses
      split at hcrosses
      · cases hcrosses
      · obtain ⟨ends, hread, hcrosses⟩ := bind_eq_ok_iff.1 hcrosses
        rw [pure_eq_ok_iff] at hcrosses
        rw [Bitset.read] at hread
        split at hread
        · cases hread
          simpa using hcrosses
        · cases hread
  rw [deadSpaceStart, MarkBitmap.bitOf_addr hlt (by omega), ok_bind] at heq
  obtain ⟨found, hfound, heq⟩ := bind_eq_ok_iff.1 heq
  obtain ⟨_, -, hfound⟩ := bind_eq_ok_iff.1 hfound
  cases hfound
  cases hlast : m.ends.lastIn lo k with
  | none =>
    rw [hlast] at heq
    cases heq
    exact ⟨lo, rfl, le_rfl, hlo⟩
  | some last =>
    rw [hlast] at heq
    cases heq
    obtain ⟨h1, h2, hmem, -⟩ := (Bitset.lastIn_spec hvalid lo k).1 last hlast
    have hne : last ≠ k - 1 := fun heq => hend (heq ▸ hmem)
    exact ⟨last + 1, rfl, by omega, by omega⟩

/-- A filler for the end of a dense prefix is found in the part, and lies in it. -/
lemma prefixFiller (ht : h.table.SameOn P g.table) {Q : ℕ → Prop} (hm : h.bitmap.SameOn Q g.bitmap)
    (hminimum : ObjectModel.minimumWords g.image = ObjectModel.minimumWords h.image)
    (hlt : h.bitmap.covered.start + h.bitmap.covered.size < wordValues)
    (hhi : hi ≤ h.bitmap.covered.words) (hbottom : s.bottom = h.bitmap.covered.addr lo)
    (htop : s.top = h.bitmap.covered.addr n) (hn : n ≤ hi) (hlo : lo < k) (hk : k < hi)
    (hP : ∀ r, h.table.regionOf (h.bitmap.covered.addr k) = .ok r → P r)
    (hQ : ∀ w, lo ≤ w → w < hi → Q w) :
    Alike (fun out out' => out' = out ∧ ∀ o, out = some o → ∃ x, o.start = h.bitmap.covered.addr x
      ∧ lo ≤ x ∧ x + o.words ≤ hi
        ∧ 0 < o.words ∧ ObjectModel.minimumWords h.image ≤ o.words)
      (h.prefixFiller? s (h.bitmap.covered.addr k) k)
      (g.prefixFiller? s (h.bitmap.covered.addr k) k) := by
  rw [prefixFiller?, prefixFiller?, hminimum]
  refine .check (ht.shape.regionOf_eq _) fun r hr => .check (ht.region_eq (hP r hr)) fun a _ => ?_
  refine .check (hm.deadSpaceCrosses_eq a (hQ k (by omega) hk) (hQ (k - 1) (by omega) (by omega)))
    fun crosses hcrosses => ?_
  refine .ite (fun htrue => ?_) fun _ => .ok ⟨rfl, by simp⟩
  subst htrue
  rw [hbottom]
  have hstart : h.bitmap.bitOf (h.bitmap.covered.addr lo) = .ok lo :=
    MarkBitmap.bitOf_addr hlt (by omega)
  refine .check (hm.deadSpaceStart_eq fun first hfirst w h1 h2 => ?_) fun start hstart => ?_
  · cases hstart.symm.trans hfirst
    exact hQ w h1 (by omega)
  obtain ⟨x, rfl, hx, hxk⟩ := deadSpaceStart_spec hm.ends.valid hlt hcrosses hlo (by omega) hstart
  refine .check rfl fun words hwords => ?_
  obtain ⟨-, hwords⟩ := Extent.delta_addr_eq_ok_iff.1 hwords
  dsimp only
  generalize ObjectModel.minimumWords h.image = minimum
  refine .ite (fun hsmall => ?_) fun hlarge => ?_
  · rw [htop]
    have hbitK : h.bitmap.bitOf (h.bitmap.covered.addr k) = .ok k :=
      MarkBitmap.bitOf_addr hlt (by omega)
    have hbitN : h.bitmap.bitOf (h.bitmap.covered.addr n) = .ok n :=
      MarkBitmap.bitOf_addr hlt (by omega)
    refine .check (hm.firstBegin_eq fun first last hfirst hlast w h1 h2 => ?_) fun next hnext => ?_
    · cases hbitK.symm.trans hfirst
      cases hbitN.symm.trans hlast
      exact hQ w (by omega) (by omega)
    refine .check rfl fun room hroom => .ite (fun _ => .error _) fun henough =>
      .ok ⟨rfl, fun o ho => ?_⟩
    obtain ⟨y, rfl, hy⟩ := MarkBitmap.firstBegin_le hbitK hbitN hnext
    obtain ⟨hle, hroom⟩ := Extent.delta_addr_eq_ok_iff.1 hroom
    cases ho
    exact ⟨x, rfl, hx, by dsimp only; omega, by dsimp only; omega, le_rfl⟩
  · refine .ok ⟨rfl, fun o ho => ?_⟩
    cases ho
    exact ⟨x, rfl, hx, by dsimp only; omega, by dsimp only; omega, by dsimp only; omega⟩

end Heap

end MarkCompact
