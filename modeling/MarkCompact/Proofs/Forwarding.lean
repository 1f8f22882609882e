import MarkCompact.Proofs.ObjectStarts

/-!
# Forwarding follows the plan

`t.Sends objs f r` says that the summary of region `r` plans its live words for `f`: either the
region moves, and `f` counts live words from its destination, or it is kept in place and appears
full.

Weak roots may point anywhere, also between two words.  An address inside of a live word is
forwarded with its word.  The offset of the byte is kept if the word is found through the start of
its object, and dropped if the word is an object start or moves with its whole region.

Main statements: `forward_byte` (where an address inside of a live word goes) and `forward_eq`, the
new address of a live word `w` is that of word `f w` on each of the paths that forwarding takes.
Forwarding changes no more of the table than block offsets.
-/

namespace MarkCompact

variable {objs : List Span} {m : MarkBitmap} {o : Span} {f : ℕ → ℕ} {n r w x : ℕ}

namespace RegionTable

variable {t : RegionTable}

/-- The live words of region `r` are planned for `f`. -/
inductive Sends (t : RegionTable) (objs : List Span) (f : ℕ → ℕ) (r : ℕ) : Prop
  /-- The region is packed to word `target`. -/
  | moved (target : ℕ) (accounts : (t.regions.get r).Accounts objs t.geometry.regionWords r)
      (destination : (t.regions.get r).destination = t.covered.addr target)
      (target_le : target ≤ r * t.geometry.regionWords)
      (eq : ∀ w, r * t.geometry.regionWords ≤ w →
        w < r * t.geometry.regionWords + t.geometry.regionWords →
        Live objs w → f w = target
          + (liveBelow objs w - liveBelow objs (r * t.geometry.regionWords)))
  /-- The region stays. -/
  | kept (partial_eq : (t.regions.get r).partialWords = partialOf objs t.geometry.regionWords r)
      (full : (t.regions.get r).dataWords = t.geometry.regionWords)
      (destination : (t.regions.get r).destination = t.covered.addr (r * t.geometry.regionWords))
      (eq : ∀ w, r * t.geometry.regionWords ≤ w →
        w < r * t.geometry.regionWords + t.geometry.regionWords →
        Live objs w → f w = w)

namespace Sends

lemma partial_eq (h : t.Sends objs f r) :
    (t.regions.get r).partialWords = partialOf objs t.geometry.regionWords r := by
  cases h with
  | moved target accounts => exact accounts.partial_eq
  | kept partial_eq => exact partial_eq

/-- No word moves to the right. -/
lemma le (h : t.Sends objs f (w / t.geometry.regionWords)) (hw : Live objs w) : f w ≤ w := by
  obtain ⟨h1, h2⟩ := div_mul_bounds t.geometry.regionWords_pos w
  cases h with
  | moved target accounts destination target_le eq =>
    have hle := liveBelow_le_add objs h1
    rw [eq w h1 h2 hw]
    omega
  | kept partial_eq full destination eq => exact le_of_eq (eq w h1 h2 hw)

/-- The summary may change its count, its source and what forwarding records. -/
lemma congr {t' : RegionTable} (h : t.Sends objs f r) (hcovered : t'.covered = t.covered)
    (hgeometry : t'.geometry = t.geometry)
    (hpartial : (t'.regions.get r).partialWords = (t.regions.get r).partialWords)
    (hlive : (t'.regions.get r).liveWords = (t.regions.get r).liveWords)
    (hdestination : (t'.regions.get r).destination = (t.regions.get r).destination) :
    t'.Sends objs f r := by
  have hdata : (t'.regions.get r).dataWords = (t.regions.get r).dataWords := by
    rw [Region.dataWords, Region.dataWords, hpartial, hlive]
  cases h with
  | moved target accounts destination target_le eq =>
    exact .moved target ⟨by rw [hpartial, hgeometry]; exact accounts.partial_eq,
      by rw [hdata, hgeometry]; exact accounts.data_eq⟩
      (by rw [hdestination, hcovered, destination]) (by rw [hgeometry]; exact target_le)
        (by rw [hgeometry]; exact eq)
  | kept partial_eq full destination eq =>
    exact .kept (by rw [hpartial, hgeometry]; exact partial_eq)
      (by rw [hdata, hgeometry]; exact full)
      (by rw [hdestination, hcovered, hgeometry, destination]) (by rw [hgeometry]; exact eq)

end Sends

lemma Refilled.sends {t' : RegionTable} (h : Refilled objs t t') (hsends : t.Sends objs f r) :
    t'.Sends objs f r := by
  have hregion := h.regions r
  exact hsends.congr h.shape.covered h.shape.geometry (by rw [hregion]) (by rw [hregion]; rfl)
    (by rw [hregion])

lemma add_words_addr (h : t.Laid) (hx : x + n ≤ t.covered.words) :
    Word.add (t.covered.addr x) (bytesPerWord * n) = .ok (t.covered.addr (x + n)) := by
  have hsize := h.size_words
  have hlt := h.covered_lt
  rw [Extent.addr_eq, Extent.addr_eq, bytesPerWord, Word.add_eq (by omega)]
  congr 1
  omega

/-! ## Pieces that move whole -/

/-- The word moves with its whole region, or with the partial object of the region. -/
def MovesWhole (t : RegionTable) (w : ℕ) : Prop :=
  (t.regions.get (w / t.geometry.regionWords)).dataWords = t.geometry.regionWords
    ∨ w % t.geometry.regionWords < (t.regions.get (w / t.geometry.regionWords)).partialWords

section

variable (ht : t.Laid) (hw : w < t.covered.words)
include ht hw

lemma forwardWhole?_byte {b : ℕ} (hb : b < 8) :
    t.forwardWhole? (t.covered.addr w + b) = t.forwardWhole? (t.covered.addr w) := by
  rw [forwardWhole?, forwardWhole?, ht.regionOf_byte hw hb, ht.offsetInRegion_byte hw hb]

lemma forwardWhole?_of_not_movesWhole (hnot : ¬t.MovesWhole w) :
    t.forwardWhole? (t.covered.addr w) = .ok none :=
  (ht.forwardWhole?_addr hw rfl).trans (if_neg hnot)

/-- All words in front of a word that moves whole are live, in its region. -/
lemma forwardWhole?_of_movesWhole (hsep : Separate objs) (hlive : Live objs w)
    (hsends : t.Sends objs f (w / t.geometry.regionWords)) (hwhole : t.MovesWhole w) :
    t.forwardWhole? (t.covered.addr w) = .ok (some (t.covered.addr (f w))) := by
  have hle := hsends.le hlive
  obtain ⟨h1, h2⟩ := div_mul_bounds t.geometry.regionWords_pos w
  have hsum := Nat.div_add_mod w t.geometry.regionWords
  rw [Nat.mul_comm] at hsum
  refine ((ht.forwardWhole?_addr hw rfl).trans (if_pos hwhole)).trans ?_
  cases hsends with
  | moved target accounts destination target_le eq =>
    have hcount : liveBelow objs w
        = liveBelow objs (w / t.geometry.regionWords * t.geometry.regionWords) + w
          % t.geometry.regionWords := by
      rw [liveBelow_of_live h1]
      · omega
      · intro x hx1 hx2
        rcases hwhole with hfull | hpartial
        · rw [accounts.data_eq, dataOf_eq_width_iff] at hfull
          exact hfull x hx1 (by omega)
        · rw [accounts.partial_eq] at hpartial
          exact live_of_lt_partialOf hsep hx1 (by omega)
    have heq : f w = target + w % t.geometry.regionWords := by
      rw [eq w h1 h2 hlive, hcount, Nat.add_sub_cancel_left]
    rw [destination, add_words_addr ht (by omega), heq]
    rfl
  | kept partial_eq full destination eq =>
    rw [destination, add_words_addr ht (by omega), eq w h1 h2 hlive, hsum]
    rfl

end

/-- A word that does not move whole lies in a region that moves. -/
lemma Sends.moved_of_not_movesWhole (h : t.Sends objs f (w / t.geometry.regionWords))
    (hnot : ¬t.MovesWhole w) :
    ∃ target, ((t.regions.get (w / t.geometry.regionWords)).Accounts objs t.geometry.regionWords
      (w / t.geometry.regionWords))
      ∧ (t.regions.get (w / t.geometry.regionWords)).destination = t.covered.addr target
      ∧ target ≤ w / t.geometry.regionWords * t.geometry.regionWords
      ∧ ∀ x, x / t.geometry.regionWords = w / t.geometry.regionWords → Live objs x →
        f x = target + (liveBelow objs x - liveBelow objs
          (w / t.geometry.regionWords * t.geometry.regionWords)) := by
  cases h with
  | moved target accounts destination target_le eq =>
    refine ⟨target, accounts, destination, target_le, fun x hx hlive => ?_⟩
    obtain ⟨h1, h2⟩ := div_mul_bounds t.geometry.regionWords_pos x
    rw [hx] at h1 h2
    exact eq x h1 h2 hlive
  | kept _ full => exact absurd (Or.inl full) hnot

/-- The object around a word that does not move whole starts in the region of the word, and goes
where the word goes. -/
lemma Sends.object_of_not_movesWhole (h : t.Sends objs f (w / t.geometry.regionWords))
    (hnot : ¬t.MovesWhole w) (hsep : Separate objs) (ho : o ∈ objs) (hcov : o.Covers w) :
    o.start / t.geometry.regionWords = w / t.geometry.regionWords
      ∧ f w = f o.start + (w - o.start) := by
  obtain ⟨h1, h2⟩ := div_mul_bounds t.geometry.regionWords_pos w
  obtain ⟨hstart, hpast⟩ := hcov
  have hin : w / t.geometry.regionWords * t.geometry.regionWords ≤ o.start := by
    by_contra hout
    have hreach :=
      reach_eq_of_crosses hsep ho (a := w / t.geometry.regionWords * t.geometry.regionWords)
      ⟨by omega, lt_of_le_of_lt h1 hpast⟩
    have hsum := Nat.div_add_mod w t.geometry.regionWords
    rw [Nat.mul_comm] at hsum
    refine hnot (.inr ?_)
    rw [h.partial_eq, partialOf, hreach]
    omega
  have hsame : o.start / t.geometry.regionWords = w / t.geometry.regionWords :=
    div_eq_of_bounds hin (by omega)
  refine ⟨hsame, ?_⟩
  obtain ⟨target, -, -, -, eq⟩ := h.moved_of_not_movesWhole hnot
  have hcount := liveBelow_covers ho hstart hpast.le
  have hmono := liveBelow_mono objs hin
  have hobject := eq o.start hsame (live_of_mem ho (Span.covers_start (hsep.words_pos o ho)))
  have hword := eq w rfl ⟨o, ho, hstart, hpast⟩
  omega

/-! ## Object starts -/

section

variable (ht : t.Laid) (hm : m.Marks objs) (hcovered : m.covered = t.covered)
include ht hm hcovered

/-- The block table gives the start of an object that does not move whole its planned address. -/
lemma forwardStart_eq (ho : o ∈ objs) (hsends : t.Sends objs f (o.start / t.geometry.regionWords))
    (hnot : ¬t.MovesWhole o.start)
    (hvalid : t.BlocksValid objs (o.start / t.geometry.regionWords)) :
    ∃ t', Refilled objs t t' ∧ ∀ b, b < 8 →
      t.forwardStart m (t.covered.addr o.start + b) = .ok (t.covered.addr (f o.start), t') := by
  have hlt : o.start < t.covered.words := hcovered ▸ hm.start_lt ho
  have hlive : Live objs o.start := live_of_mem ho (Span.covers_start (hm.separate.words_pos o ho))
  obtain ⟨target, accounts, destination, hle, eq⟩ := hsends.moved_of_not_movesWhole hnot
  obtain ⟨t', hrefilled, heq⟩ := forwardStart_start ht hm hcovered ho rfl accounts.partial_eq hvalid
  obtain ⟨h1, -⟩ := div_mul_bounds t.geometry.regionWords_pos o.start
  have hsize := liveBelow_le_add objs h1
  refine ⟨t', hrefilled, fun b hb => ?_⟩
  rw [heq b hb, scanForward_start ht hm hcovered ho rfl accounts.partial_eq hb, destination,
    add_bytes_addr ht (by omega), eq o.start rfl hlive]
  rfl

/-- Where the start of an object goes: with its region, or by the block table. -/
def startTarget (t : RegionTable) (m : MarkBitmap) (object : ℕ) :
    Except Fault (ℕ × RegionTable) := do
  match ← t.forwardWhole? object with
  | some start => pure (start, t)
  | none => t.forwardStart m object

lemma startTarget_eq (ho : o ∈ objs) (hsends : t.Sends objs f (o.start / t.geometry.regionWords))
    (hvalid : t.BlocksValid objs (o.start / t.geometry.regionWords)) :
    ∃ t', t.startTarget m (t.covered.addr o.start) = .ok (t.covered.addr (f o.start), t')
      ∧ Refilled objs t t' := by
  have hlt : o.start < t.covered.words := hcovered ▸ hm.start_lt ho
  rw [startTarget]
  by_cases hwhole : t.MovesWhole o.start
  · have hlive : Live objs o.start :=
      live_of_mem ho (Span.covers_start (hm.separate.words_pos o ho))
    rw [forwardWhole?_of_movesWhole ht hlt hm.separate hlive hsends hwhole]
    exact ⟨t, rfl, .refl objs t⟩
  · obtain ⟨t', hrefilled, heq⟩ := forwardStart_eq ht hm hcovered ho hsends hwhole hvalid
    rw [forwardWhole?_of_not_movesWhole ht hlt hwhole]
    exact ⟨t', heq 0 (by decide), hrefilled⟩

/-! ## Any byte of a live word -/

variable {b : ℕ}

lemma objectAround_byte (ho : o ∈ objs) (hcov : o.Covers w)
    (hr : r * t.geometry.regionWords ≤ o.start) (hb : b < 8) :
    t.objectAround m r (t.covered.addr w + b) = .ok (t.covered.addr o.start) := by
  have hpast := hm.past_le o ho
  obtain ⟨h1, h2⟩ := hcov
  have hstop : Word.add (t.covered.addr o.start) (bytesPerWord * o.words)
      = .ok (t.covered.addr o.past) :=
    add_words_addr ht (by rw [← hcovered]; exact hpast)
  have hin : t.covered.addr w + b < t.covered.addr o.past := (Extent.byte_lt_addr hb).2 h2
  rw [objectAround, Laid.regionStart_eq, ← hcovered, hm.bitOf_addr (by omega), ok_bind,
    hm.bitOf_byte (by omega) hb, hm.bitOf_addr (by omega), ok_bind, Bitset.lastIn?,
    Bitset.checkRange_eq (by omega) (by rw [hm.begins_size]; omega), ok_bind,
    hm.lastIn_begins ho ⟨h1, h2⟩ hr]
  show (m.objectSize (m.covered.addr o.start) >>= _) = _
  rw [hm.objectSize_eq ho, ok_bind]
  show (Word.add (m.covered.addr o.start) (bytesPerWord * o.words) >>= _) = _
  rw [hcovered, hstop, ok_bind, if_pos hin, MarkBitmap.addrOf_eq, hcovered]
  rfl

omit ht hm hcovered in
/-- An address inside of an object keeps its distance from the start. -/
lemma forward_inside {a object start target : ℕ} {t' : RegionTable}
    (hwhole : t.forwardWhole? a = .ok none) (hmarked : m.isMarked a = .ok false)
    (hregion : t.regionOf a = .ok r) (hobject : t.objectAround m r a = .ok object)
    (hstart : t.startTarget m object = .ok (start, t'))
    (hadd : Word.add start (a - object) = .ok target) :
    t.forward m a = .ok (target, t') := by
  rw [startTarget] at hstart
  obtain ⟨whole, hwhole', hstart⟩ := bind_eq_ok_iff.1 hstart
  rw [forward, hwhole, ok_bind]
  dsimp only
  rw [hmarked, ok_bind, if_neg Bool.false_ne_true, hregion, ok_bind, hobject, ok_bind,
    hwhole', ok_bind]
  cases whole with
  | some _ =>
    cases hstart
    show (Word.add start (a - object) >>= _) = _
    rw [hadd]
    rfl
  | none =>
    dsimp only at hstart ⊢
    rw [hstart]
    show (Word.add start (a - object) >>= _) = _
    rw [hadd]
    rfl

/-- Where an address inside of a live word goes: with its word, and the offset of the byte is kept
unless the word moves with its region or its partial object, or is an object start. -/
theorem forward_byte (hb : b < 8) (hlive : Live objs w)
    (hsends : t.Sends objs f (w / t.geometry.regionWords))
    (hvalid : t.BlocksValid objs (w / t.geometry.regionWords)) :
    ∃ t', t.forward m (t.covered.addr w + b) = .ok (t.covered.addr (f w)
        + if (t.regions.get (w / t.geometry.regionWords)).dataWords = t.geometry.regionWords
            ∨ w % t.geometry.regionWords < (t.regions.get (w / t.geometry.regionWords)).partialWords
            ∨ m.begins.mem w then 0
          else b, t')
      ∧ Refilled objs t t' := by
  have hw : w < t.covered.words := hcovered ▸ hm.live_lt hlive
  by_cases hwhole : t.MovesWhole w
  · refine ⟨t, ?_, .refl objs t⟩
    rw [forward, forwardWhole?_byte ht hw hb,
      forwardWhole?_of_movesWhole ht hw hm.separate hlive hsends hwhole, ok_bind,
      if_pos (by rw [← or_assoc]; exact .inl hwhole)]
    rfl
  have hnone : t.forwardWhole? (t.covered.addr w + b) = .ok none := by
    rw [forwardWhole?_byte ht hw hb, forwardWhole?_of_not_movesWhole ht hw hwhole]
  have hmarked : m.isMarked (t.covered.addr w + b) = .ok (m.begins.mem w) := by
    rw [← hcovered] at hw ⊢
    rw [hm.isMarked_byte hw hb, hm.isMarked_eq hw]
  by_cases hstart : m.begins.mem w = true
  · obtain ⟨o, ho, rfl⟩ := (hm.mem_begins w).1 hstart
    obtain ⟨t', hrefilled, heq⟩ := forwardStart_eq ht hm hcovered ho hsends hwhole hvalid
    refine ⟨t', ?_, hrefilled⟩
    rw [forward, hnone, ok_bind]
    dsimp only
    rw [hmarked, ok_bind, if_pos hstart, heq b hb, if_pos (.inr (.inr hstart))]
    rfl
  · obtain ⟨o, ho, hcov⟩ := hlive
    obtain ⟨hsame, hfw⟩ := hsends.object_of_not_movesWhole hwhole hm.separate ho hcov
    have hin : w / t.geometry.regionWords * t.geometry.regionWords ≤ o.start :=
      hsame ▸ Nat.div_mul_le_self _ _
    obtain ⟨t', htarget, hrefilled⟩ :=
      startTarget_eq ht hm hcovered ho (hsame ▸ hsends) (hsame ▸ hvalid)
    have hle := hsends.le ⟨o, ho, hcov⟩
    have hadd : Word.add (t.covered.addr (f o.start))
        (t.covered.addr w + b - t.covered.addr o.start)
        = .ok (t.covered.addr (f w) + b) := by
      have hsize := ht.size_words
      have hlt := ht.covered_lt
      have hstart_le := hcov.1
      simp only [Extent.addr_eq]
      rw [Word.add_eq (by omega)]
      exact congrArg Except.ok (by omega)
    rw [if_neg (by rw [← or_assoc]; exact not_or.2 ⟨hwhole, hstart⟩)]
    exact ⟨t', forward_inside hnone (by rw [hmarked, Bool.eq_false_iff.2 hstart])
      (by rw [ht.regionOf_byte hw hb, ht.regionOf_addr hw.le])
      (objectAround_byte ht hm hcovered ho hcov hin hb) htarget hadd, hrefilled⟩

/-- The new address of a live word is the planned one. -/
theorem forward_eq (hw : Live objs w) (hsends : t.Sends objs f (w / t.geometry.regionWords))
    (hvalid : t.BlocksValid objs (w / t.geometry.regionWords)) :
    ∃ t', t.forward m (t.covered.addr w) = .ok (t.covered.addr (f w), t') ∧ Refilled objs t t' := by
  obtain ⟨t', heq, hrefilled⟩ := forward_byte ht hm hcovered (b := 0) (by decide) hw hsends hvalid
  rw [ite_self] at heq
  exact ⟨t', heq, hrefilled⟩

end

end RegionTable

end MarkCompact
