import MarkCompact.Proofs.ObjectStarts

/-!
# Fast and slow answers

The block table is a cache: forwarding fills it where it is needed.  `forwardByScan` is forwarding
without the cache, by counting from the start of the region.  It reads nothing that recording block
offsets changes, and `forward` answers what it answers (`Consistent.forward_eq`).  So no answer
depends on which blocks have been recorded, and where a region is not kept in place, its object
starts are forwarded as they are scanned.

Main statements: `Consulted.sameAnswers` and `Consistent.forward_start`.
-/

namespace MarkCompact

variable {objs : List Span} {m : MarkBitmap} {o : Span} {addr bit k r object : ℕ}

/-! ## Reading the bitmap -/

namespace MarkBitmap

/-- An address that has a bit lies in the word of the bit. -/
lemma exists_byte_of_bitOf (h : m.bitOf addr = .ok bit) :
    ∃ k, k < 8 ∧ addr = m.covered.addr bit + k := by
  obtain ⟨offset, hoffset, h⟩ := bind_eq_ok_iff.1 h
  obtain ⟨stop, -, hoffset⟩ := bind_eq_ok_iff.1 hoffset
  cases pure_eq_ok_iff.1 h
  split at hoffset
  case isTrue hin =>
    cases pure_eq_ok_iff.1 hoffset
    refine ⟨(addr - m.covered.start) % 8, Nat.mod_lt _ (by decide), ?_⟩
    rw [Extent.addr_eq, bytesPerWord]
    omega
  case isFalse => cases hoffset

/-- What is marked is an object start. -/
lemma Marks.exists_start (h : m.Marks objs) (heq : m.isMarked addr = .ok true) :
    ∃ o ∈ objs, ∃ k, k < 8 ∧ addr = m.covered.addr o.start + k := by
  obtain ⟨bit, hbit, hread⟩ := bind_eq_ok_iff.1 heq
  rw [Bitset.read] at hread
  split at hread
  · obtain ⟨o, ho, rfl⟩ := (h.mem_begins bit).1 (pure_eq_ok_iff.1 hread)
    exact ⟨o, ho, exists_byte_of_bitOf hbit⟩
  · cases hread

end MarkBitmap

namespace Region

/-- The data of the region has room behind its destination. -/
def HasRoom (a : Region) : Prop :=
  a.dataWords = 0 ∨ a.destination + Word.bytes a.dataWords < wordValues

lemma HasRoom.congr {a b : Region} (h : a.HasRoom) (hdata : b.dataWords = a.dataWords)
    (hdestination : b.destination = a.destination) : b.HasRoom := by
  rw [HasRoom, hdata, hdestination]
  exact h

end Region

namespace RegionTable

variable {t t' t'' : RegionTable}

/-- What is found around an address is an object start in the region of the address. -/
lemma objectAround_ok (ht : t.Laid) (hm : m.Marks objs) (hcovered : m.covered = t.covered)
    (hr : r < t.geometry.regionCount) (hregion : t.regionOf addr = .ok r)
    (heq : t.objectAround m r addr = .ok object) :
    ∃ o ∈ objs, object = t.covered.addr o.start ∧ r = o.start / t.geometry.regionWords := by
  have hend : (r + 1) * t.geometry.regionWords ≤ t.covered.words := by
    rw [ht.covered_words]
    exact Nat.mul_le_mul_right _ hr
  rw [Nat.succ_mul] at hend
  have hlimit : m.bitOf (t.regionStart r) = .ok (r * t.geometry.regionWords) := by
    rw [Laid.regionStart_eq, ← hcovered]
    exact hm.bitOf_addr (by rw [hcovered]; omega)
  rw [objectAround, hlimit, ok_bind] at heq
  obtain ⟨bit, hbit, heq⟩ := bind_eq_ok_iff.1 heq
  -- The bit of the address lies in the region.
  have hbitRegion : bit / t.geometry.regionWords = r := by
    rw [regionOf, wordOffset, ← hcovered] at hregion
    obtain ⟨offset, hoffset, hrest⟩ := bind_eq_ok_iff.1 hbit
    cases pure_eq_ok_iff.1 hrest
    rw [hoffset, ok_bind, pure_bind, Geometry.shiftRight_regionLog] at hregion
    exact pure_eq_ok_iff.1 hregion
  obtain ⟨found, hfound, heq⟩ := bind_eq_ok_iff.1 heq
  cases found with
  | none => cases heq
  | some beg =>
    obtain ⟨words, -, heq⟩ := bind_eq_ok_iff.1 heq
    obtain ⟨stop, -, heq⟩ := bind_eq_ok_iff.1 heq
    obtain ⟨_, -, hlast⟩ := bind_eq_ok_iff.1 hfound
    obtain ⟨h1, h2, hbegins, -⟩ :=
      (Bitset.lastIn_spec hm.begins_valid _ _).1 beg (Except.ok.inj hlast)
    obtain ⟨o, ho, rfl⟩ := (hm.mem_begins beg).1 hbegins
    have hup := Nat.lt_div_mul_add t.geometry.regionWords_pos (a := bit)
    rw [hbitRegion] at hup
    split at heq
    · cases pure_eq_ok_iff.1 heq
      exact ⟨o, ho, hcovered ▸ rfl, (div_eq_of_bounds h1 (by omega)).symm⟩
    · cases heq

/-! ## Forwarding without the block table -/

/-- The new address of the live word at `addr`, where object starts are found by counting from the
start of the region. -/
def forwardByScan (t : RegionTable) (m : MarkBitmap) (addr : ℕ) : Except Fault ℕ := do
  match ← t.forwardWhole? addr with
  | some result => pure result
  | none =>
    if ← m.isMarked addr then t.scanForward m addr
    else
      let r ← t.regionOf addr
      let object ← t.objectAround m r addr
      let start ←
        match ← t.forwardWhole? object with
        | some start => pure start
        | none => t.scanForward m object
      Word.add start (addr - object)

/-- Nothing but the recorded flag of a region is changed by recording blocks. -/
lemma Refilled.region_bind (h : Refilled objs t t') {α : Type} {f : Region → Except Fault α}
    (hf : ∀ a filled, f { a with blocksFilled := filled } = f a) (r : ℕ) :
    (t'.region r >>= f) = (t.region r >>= f) := by
  rw [region, region, h.shape.geometry]
  split
  · show f (t'.regions.get r) = f (t.regions.get r)
    rw [h.regions r, hf]
  · rfl

lemma Refilled.scanForward_eq (h : Refilled objs t t') (m : MarkBitmap) (addr : ℕ) :
    t'.scanForward m addr = t.scanForward m addr := by
  simp only [scanForward, h.shape.regionOf_eq, h.shape.regionStart_eq]
  exact congrArg (t.regionOf addr >>= ·) (funext fun r => h.region_bind (fun _ _ => rfl) r)

lemma Refilled.forwardWhole?_eq (h : Refilled objs t t') (addr : ℕ) :
    t'.forwardWhole? addr = t.forwardWhole? addr := by
  simp only [forwardWhole?, h.shape.regionOf_eq, h.shape.offsetInRegion_eq, h.shape.geometry]
  exact congrArg (t.regionOf addr >>= ·) (funext fun r => h.region_bind (fun _ _ => rfl) r)

/-- Forwarding without the block table does not depend on it. -/
lemma Refilled.forwardByScan_eq (h : Refilled objs t t') (m : MarkBitmap) (addr : ℕ) :
    t'.forwardByScan m addr = t.forwardByScan m addr := by
  simp only [forwardByScan, objectAround, h.forwardWhole?_eq, h.scanForward_eq, h.shape.regionOf_eq,
    h.shape.regionStart_eq]

lemma eq_of_map_pair {answers : Except Fault ℕ} {result : ℕ}
    (h : answers.map (·, t') = .ok (result, t'')) : t' = t'' := by
  cases answers <;> cases h
  rfl

section

variable (ht : t.Laid) (hm : m.Marks objs) (hcovered : m.covered = t.covered)
  (hregion : t.regionOf addr = .ok r)
  (hpartial : (t.regions.get r).partialWords = partialOf objs t.geometry.regionWords r)
  (hvalid : t.BlocksValid objs r)
include ht hm hcovered hregion hpartial hvalid

/-- Forwarding answers as it would without the block table, and changes no more than the block
table. -/
theorem forward_eq_byScan :
    ∃ t', Refilled objs t t' ∧ t.forward m addr = (t.forwardByScan m addr).map (·, t') := by
  rw [forward, forwardByScan]
  by_cases hr : r < t.geometry.regionCount
  swap
  · -- The end of the range has no region.
    have hnone : t.forwardWhole? addr = .error (.regionOutOfBounds r t.geometry.regionCount) := by
      rw [forwardWhole?, hregion, ok_bind, region, if_neg hr]
      rfl
    rw [hnone]
    exact ⟨t, .refl objs t, rfl⟩
  rcases t.forwardWhole? addr with e | _ | result
  · exact ⟨t, .refl objs t, rfl⟩
  swap
  · exact ⟨t, .refl objs t, rfl⟩
  rw [ok_bind, ok_bind]
  dsimp only
  rcases hmarked : m.isMarked addr with e | marked
  · exact ⟨t, .refl objs t, rfl⟩
  rw [ok_bind, ok_bind]
  cases marked with
  | true =>
    obtain ⟨o, ho, k, hk, rfl⟩ := hm.exists_start hmarked
    have hlt := hm.start_lt ho
    rw [hcovered] at hregion hlt ⊢
    rw [ht.regionOf_byte hlt hk, ht.regionOf_addr hlt.le] at hregion
    obtain ⟨t', hrefilled, heq⟩ :=
      forwardStart_start ht hm hcovered ho (Except.ok.inj hregion).symm hpartial hvalid
    exact ⟨t', hrefilled, heq k hk⟩
  | false =>
    rw [if_neg (by decide), if_neg (by decide), hregion, ok_bind, ok_bind]
    rcases hobject : t.objectAround m r addr with e | object
    · exact ⟨t, .refl objs t, rfl⟩
    rw [ok_bind, ok_bind]
    obtain ⟨o, ho, rfl, hstart⟩ := objectAround_ok ht hm hcovered hr hregion hobject
    rcases t.forwardWhole? (t.covered.addr o.start) with e | _ | start
    · exact ⟨t, .refl objs t, rfl⟩
    · obtain ⟨t', hrefilled, heq⟩ := forwardStart_start ht hm hcovered ho hstart hpartial hvalid
      refine ⟨t', hrefilled, ?_⟩
      have hzero := heq 0 (by decide)
      rw [Nat.add_zero] at hzero
      rw [ok_bind, ok_bind]
      dsimp only
      rw [hzero]
      rcases t.scanForward m (t.covered.addr o.start) with e | start
      · rfl
      · show (Word.add _ _ >>= fun result => pure (result, t')) = (Word.add _ _).map (·, t')
        cases Word.add start (addr - t.covered.addr o.start) <;> rfl
    · refine ⟨t, .refl objs t, ?_⟩
      show (Word.add _ _ >>= fun result => pure (result, t)) = (Word.add _ _).map (·, t)
      cases Word.add start (addr - t.covered.addr o.start) <;> rfl

/-- Forwarding any address records at most the block offsets of its region. -/
lemma refilled_of_forward {result : ℕ} (heq : t.forward m addr = .ok (result, t')) :
    Refilled objs t t' := by
  obtain ⟨t₁, hrefilled, heq₁⟩ := forward_eq_byScan ht hm hcovered hregion hpartial hvalid
  exact eq_of_map_pair (heq₁.symm.trans heq) ▸ hrefilled

end

/-! ## The block table as a cache -/

/-- The table agrees with the bitmap: the objects that are marked are those that were accounted, and
the blocks that were recorded are right. -/
structure Consistent (t : RegionTable) (m : MarkBitmap) (objs : List Span) : Prop where
  laid : t.Laid
  marks : m.Marks objs
  covered : m.covered = t.covered
  partial_eq : ∀ r, (t.regions.get r).partialWords = partialOf objs t.geometry.regionWords r
  valid : ∀ r, t.BlocksValid objs r

lemma Refilled.consistent (h : Refilled objs t t') (ht : t.Consistent m objs) :
    t'.Consistent m objs where
  laid := h.shape.laid ht.laid
  marks := ht.marks
  covered := ht.covered.trans h.shape.covered.symm
  partial_eq r := by
    rw [h.regions r, h.shape.geometry]
    exact ht.partial_eq r
  valid r := h.valid r (ht.valid r)

namespace Consistent

variable (h : t.Consistent m objs)
include h

/-- Forwarding answers as it would without the block table, for whatever address, and changes no
more than the block table. -/
theorem forward_eq (addr : ℕ) :
    ∃ t', Refilled objs t t' ∧ t.forward m addr = (t.forwardByScan m addr).map (·, t') := by
  cases hregion : t.regionOf addr with
  | error e =>
    refine ⟨t, .refl objs t, ?_⟩
    rw [forward, forwardByScan, forwardWhole?, hregion]
    rfl
  | ok r => exact forward_eq_byScan h.laid h.marks h.covered hregion (h.partial_eq r) (h.valid r)

/-- The answers of forwarding. -/
lemma map_forward (addr : ℕ) : (t.forward m addr).map Prod.fst = t.forwardByScan m addr := by
  obtain ⟨t', -, heq⟩ := h.forward_eq addr
  rw [heq]
  cases t.forwardByScan m addr <;> rfl

end Consistent

/-- The table `t'` comes from `t` by recording the blocks of regions and by forwarding addresses, in
any order and any number of times. -/
inductive Consulted (m : MarkBitmap) (t : RegionTable) : RegionTable → Prop
  | refl : Consulted m t t
  | fill {t' t'' : RegionTable} {r : ℕ} (consulted : Consulted m t t')
      (filled : t'.fillBlocks m r = .ok t'') : Consulted m t t''
  | forward {t' t'' : RegionTable} {addr result : ℕ} (consulted : Consulted m t t')
      (forwarded : t'.forward m addr = .ok (result, t'')) : Consulted m t t''

lemma Consulted.trans (h : Consulted m t t') (h' : Consulted m t' t'') : Consulted m t t'' := by
  induction h' with
  | refl => exact h
  | fill _ filled ih => exact ih.fill filled
  | forward _ forwarded ih => exact ih.forward forwarded

/-- Consulting a table changes no more than its block table. -/
lemma Consulted.refilled (ht : t.Consistent m objs) (h : Consulted m t t') :
    Refilled objs t t' := by
  induction h with
  | refl => exact .refl objs t
  | @fill t' t'' r _ filled ih =>
    have hconsistent := ih.consistent ht
    have hr : r < t'.geometry.regionCount := by
      obtain ⟨a, ha, -⟩ := bind_eq_ok_iff.1 filled
      exact (region_eq_ok_iff.1 ha).1
    obtain ⟨_, heq, hrefilled, -⟩ :=
      fillBlocks_eq hconsistent.laid hconsistent.marks hconsistent.covered hr
      (hconsistent.partial_eq r)
    cases heq.symm.trans filled
    exact ih.trans hrefilled
  | @forward t' t'' addr result _ forwarded ih =>
    obtain ⟨t₁, hrefilled, heq⟩ := (ih.consistent ht).forward_eq addr
    exact eq_of_map_pair (heq.symm.trans forwarded) ▸ ih.trans hrefilled

/-- The two tables forward and scan every address alike. -/
structure SameAnswers (m : MarkBitmap) (t t' : RegionTable) : Prop where
  forward : ∀ addr, (t'.forward m addr).map Prod.fst = (t.forward m addr).map Prod.fst
  scanForward : ∀ addr, t'.scanForward m addr = t.scanForward m addr

/-- Consulting a table changes none of its answers. -/
theorem Consulted.sameAnswers (ht : t.Consistent m objs) (h : Consulted m t t') :
    SameAnswers m t t' where
  forward addr := by
    have hrefilled := h.refilled ht
    rw [ht.map_forward, (hrefilled.consistent ht).map_forward, hrefilled.forwardByScan_eq]
  scanForward := (h.refilled ht).scanForward_eq m

/-! ## Object starts -/

section

variable (ht : t.Consistent m objs) (ho : o ∈ objs) (hr : r = o.start / t.geometry.regionWords)
  (haccounts : (t.regions.get r).Accounts objs t.geometry.regionWords r)
include ht ho hr haccounts

/-- An object start of a region that is not kept in place is forwarded as it is scanned, also if the
region is full. -/
lemma Consistent.forwardByScan_start :
    t.forwardByScan m (t.covered.addr o.start) = t.scanForward m (t.covered.addr o.start) := by
  have hlt : o.start < t.covered.words := ht.covered ▸ ht.marks.start_lt ho
  obtain ⟨h1, h2⟩ := div_mul_bounds t.geometry.regionWords_pos o.start
  have hoffset := Nat.div_add_mod o.start t.geometry.regionWords
  rw [Nat.mul_comm] at hoffset
  -- No object starts within the partial object of a region.
  have hpartial : ¬o.start % t.geometry.regionWords < (t.regions.get r).partialWords := by
    intro hin
    rw [haccounts.partial_eq, partialOf, hr] at hin
    exact not_starts_of_lt_reach ht.marks.separate h1 (by omega) ⟨o, ho, rfl⟩
  rw [forwardByScan, ht.laid.forwardWhole?_addr hlt hr]
  by_cases hfull : (t.regions.get r).dataWords = t.geometry.regionWords
  · -- All words in front of the object are live.
    have hcount : liveBelow objs o.start - liveBelow objs (r * t.geometry.regionWords)
        = o.start % t.geometry.regionWords := by
      have hlive := dataOf_eq_width_iff.1 (haccounts.data_eq ▸ hfull)
      rw [← hr] at h1 h2 hoffset
      rw [liveBelow_of_live h1 fun w hw1 hw2 => hlive w hw1 (by omega)]
      omega
    have hscan :=
      scanForward_start ht.laid ht.marks ht.covered ho hr haccounts.partial_eq (k := 0) (by decide)
    have hbytes := ht.laid.size_words
    have hsize := ht.laid.covered_lt
    rw [Nat.add_zero, hcount, bytes_eq (by omega)] at hscan
    rw [if_pos (Or.inl hfull), hscan, bytesPerWord]
    cases Word.add (t.regions.get r).destination (8 * (o.start % t.geometry.regionWords)) <;> rfl
  · have hmarked := ht.marks.isMarked_eq (ht.marks.start_lt ho)
    rw [ht.covered, (ht.marks.mem_begins _).2 ⟨o, ho, rfl⟩] at hmarked
    rw [if_neg (by tauto), pure_bind]
    dsimp only
    rw [hmarked, ok_bind, if_pos rfl]

/-- Where the data of the region has room, forwarding and scanning give one address. -/
theorem Consistent.forward_start (hroom : (t.regions.get r).HasRoom) :
    ∃ result t', t.forward m (t.covered.addr o.start) = .ok (result, t')
      ∧ t.scanForward m (t.covered.addr o.start) = .ok result := by
  obtain ⟨h1, h2⟩ := div_mul_bounds t.geometry.regionWords_pos o.start
  rw [← hr] at h1 h2
  have hlive : Live objs o.start :=
    live_of_mem ho (Span.covers_start (ht.marks.separate.words_pos o ho))
  have hfewer := liveBelow_lt hlive h2
  have hmono := liveBelow_mono objs h1
  have hwords := ht.laid.regionWords_lt
  have hle := dataOf_le objs t.geometry.regionWords r
  have hdata := haccounts.data_eq
  have hlimit : liveLimit * 8 < wordValues := by decide
  have hscan :=
    scanForward_start ht.laid ht.marks ht.covered ho hr haccounts.partial_eq (k := 0) (by decide)
  rw [Region.HasRoom, hdata, bytes_eq (by omega)] at hroom
  rw [dataOf] at hle hroom
  rw [Nat.add_zero, bytes_eq (by omega), Word.add_eq (by omega)] at hscan
  obtain ⟨t', -, hforward⟩ := ht.forward_eq (t.covered.addr o.start)
  rw [ht.forwardByScan_start ho hr haccounts, hscan] at hforward
  exact ⟨_, t', hforward, hscan⟩

end

end RegionTable

end MarkCompact
