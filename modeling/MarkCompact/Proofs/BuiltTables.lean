import MarkCompact.Proofs.Answers
import MarkCompact.Proofs.Measures

/-!
# Tables that are built step by step

Objects are accounted, regions are packed once or again, those of a dense prefix are kept in place,
and blocks are recorded: `Built` says which tables come about in this way, from whatever order and
number of such calls, as long as each of them gave a result.  What such a call has done follows from
its result alone.

Main statements: `Built.prepared` (what is known of such a table) and `forward_eq_scanForward` (how
it forwards object starts).
-/

namespace MarkCompact

variable {objs : List Span} {m : MarkBitmap} {o : Span} {q r : ℕ}

namespace Region

variable {a b : Region} {n : ℕ}

lemma setCount_eq_ok_iff :
    a.setCount n = .ok b ↔ n < claimedCount ∧ { a with state := packState n a.liveWords } = b := by
  rw [setCount]
  exact guard_eq_ok_iff

lemma setLiveWords_eq_ok (h : a.setLiveWords n = .ok b) :
    { a with state := packState a.count n } = b := by
  rw [setLiveWords] at h
  split at h
  · exact pure_eq_ok_iff.1 h
  · cases h

lemma addLive_eq_ok (h : a.addLive n = .ok b) : a.liveWords + n < liveLimit := by
  rw [addLive] at h
  obtain ⟨sum, hsum, h⟩ := bind_eq_ok_iff.1 h
  obtain ⟨-, rfl⟩ := Word.add_eq_ok_iff.1 hsum
  split at h
  · assumption
  · cases h

end Region

namespace RegionTable

variable {t t' t'' t₀ : RegionTable}

/-! ## Accounting -/

/-- An object that has been accounted was accounted as `Region.account` says. -/
lemma addObject_ok (ht : t.Laid) (hpast : o.past ≤ t.covered.words)
    (heq : t.addObject (t.covered.addr o.start) o.words = .ok t') : t.SameShape t' ∧ ∀ r,
      t'.regions.get r
        = (t.regions.get r).account t.geometry.regionWords (t.covered.addr o.start) o r := by
  have hpos : 0 < o.words := by
    by_contra hzero
    rw [addObject, if_pos (by omega)] at heq
    cases heq
  have hW := t.geometry.regionWords_pos
  have hwords := ht.words_lt
  have hlast : o.start + o.words = o.past := rfl
  obtain ⟨h1, h2⟩ := div_mul_bounds hW o.start
  obtain ⟨h3, h4⟩ := div_mul_bounds hW (o.past - 1)
  -- The words of the head were added to its region.
  have hroom : (t.regions.get (o.start / t.geometry.regionWords)).liveWords
      + (min o.past (o.start / t.geometry.regionWords * t.geometry.regionWords
        + t.geometry.regionWords) - o.start)
        < liveLimit := by
    have heq := heq
    rw [addObject, if_neg (by omega), ht.wordOffset_addr (by omega), ok_bind,
      Word.add_eq (by omega), ok_bind] at heq
    simp only [Geometry.shiftRight_regionLog, hlast] at heq
    by_cases hone : o.start / t.geometry.regionWords = (o.past - 1) / t.geometry.regionWords
    · rw [if_pos hone] at heq
      obtain ⟨-, b, hb, -⟩ := update_eq_ok_iff.1 heq
      have hsum := Region.addLive_eq_ok hb
      rw [← hone] at h3 h4
      omega
    · rw [if_neg hone] at heq
      obtain ⟨t₁, hhead, -⟩ := bind_eq_ok_iff.1 heq
      obtain ⟨-, b, hb, -⟩ := update_eq_ok_iff.1 hhead
      have hsum := Region.addLive_eq_ok hb
      have hmod := Nat.div_add_mod o.start t.geometry.regionWords
      rw [Nat.mul_comm] at hmod
      omega
  obtain ⟨t₁, heq₁, hshape, -, hget⟩ := addObject_eq ht hpos hpast hroom
  obtain rfl := Except.ok.inj (heq.symm.trans heq₁)
  exact ⟨hshape, hget⟩

/-- Accounting records no blocks. -/
lemma unfilled_addObject (ht : t.Laid) (hpast : o.past ≤ t.covered.words)
    (heq : t.addObject (t.covered.addr o.start) o.words = .ok t')
    (h : ∀ r, (t.regions.get r).blocksFilled = false) (r : ℕ) :
    (t'.regions.get r).blocksFilled = false := by
  obtain ⟨-, hget⟩ := addObject_ok ht hpast heq
  rw [hget, (Region.samePlan_account ..).blocksFilled]
  exact h r

/-! ## Blocks -/

lemma BlocksValid.of_unfilled (h : (t.regions.get r).blocksFilled = false) :
    t.BlocksValid objs r := fun hfilled => by
  rw [h] at hfilled
  cases hfilled

lemma BlocksValid.of_blocks (h : t.BlocksValid objs r) (hgeometry : t'.geometry = t.geometry)
    (hblocks : t'.blocks = t.blocks)
    (hfilled : (t'.regions.get r).blocksFilled = (t.regions.get r).blocksFilled) :
    t'.BlocksValid objs r := by
  intro hfilled'
  have hrecorded := h (hfilled ▸ hfilled')
  rw [Recorded, hgeometry, hblocks]
  exact hrecorded

/-! ## Packing -/

/-- The tables differ in what a packing plans. -/
structure Replans (t t' : RegionTable) : Prop where
  shape : t.SameShape t'
  blocks : t'.blocks = t.blocks
  sizes : ∀ q, (t.regions.get q).SameSizes (t'.regions.get q)

lemma Replans.refl (t : RegionTable) : t.Replans t :=
  ⟨.refl t, rfl, fun _ => .refl _⟩

lemma Replans.trans (h : t.Replans t') (h' : t'.Replans t'') : t.Replans t'' :=
  ⟨h.shape.trans h'.shape, h'.blocks.trans h.blocks, fun q => (h.sizes q).trans (h'.sizes q)⟩

lemma Laid.replans_setRegion (ht : t.Laid) (hr : r < t.geometry.regionCount) {b : Region}
    (h : (t.regions.get r).SameSizes b) : t.Replans (t.setRegion r b) := by
  refine ⟨t.sameShape_setRegion r b, rfl, fun q => ?_⟩
  by_cases hq : q = r
  · subst hq
    rw [ht.get_setRegion_self hr]
    exact h
  · rw [get_setRegion_of_ne hq]
    exact .refl _

/-- Changing the plan of a region, but not its destination. -/
lemma Laid.update_plan (ht : t.Laid) {f : Region → Except Fault Region}
    (heq : t.update r f = .ok t')
    (hf : ∀ a b, f a = .ok b → a.SameSizes b ∧ b.destination = a.destination) :
    t.Replans t' ∧ ∀ q, (t'.regions.get q).destination = (t.regions.get q).destination := by
  obtain ⟨hr, b, hb, rfl⟩ := update_eq_ok_iff.1 heq
  obtain ⟨hsizes, hdestination⟩ := hf _ _ hb
  refine ⟨ht.replans_setRegion hr hsizes, fun q => ?_⟩
  by_cases hq : q = r
  · subst hq
    rw [ht.get_setRegion_self hr, hdestination]
  · rw [get_setRegion_of_ne hq]

lemma placeRegion_ok (ht : t.Laid) {words target : ℕ}
    (heq : t.placeRegion r words target = .ok t') :
    t.Replans t' ∧ ∀ q, (t'.regions.get q).destination = (t.regions.get q).destination := by
  have hsource : ∀ a b : Region, (pure { a with source := r } : Except Fault Region) = .ok b →
      a.SameSizes b ∧ b.destination = a.destination := by
    intro a b hb
    cases pure_eq_ok_iff.1 hb
    exact ⟨⟨rfl, rfl, rfl, rfl, rfl, rfl⟩, rfl⟩
  rw [placeRegion] at heq
  obtain ⟨lastWord, -, heq⟩ := bind_eq_ok_iff.1 heq
  obtain ⟨first, -, heq⟩ := bind_eq_ok_iff.1 heq
  obtain ⟨last, -, heq⟩ := bind_eq_ok_iff.1 heq
  -- Either some region learns its source or none does.
  obtain ⟨t₁, ht₁, hcount⟩ : ∃ t₁,
      (t.Replans t₁ ∧ ∀ q, (t₁.regions.get q).destination = (t.regions.get q).destination)
      ∧ t₁.update r (·.setCount (otherRegions r first last)) = .ok t' := by
    obtain ⟨aligned, -, heq⟩ := bind_eq_ok_iff.1 heq
    dsimp only at heq
    split at heq
    · obtain ⟨t₁, hupdate, hcount⟩ := bind_eq_ok_iff.1 heq
      exact ⟨t₁, ht.update_plan hupdate hsource, hcount⟩
    · split at heq
      · obtain ⟨t₁, hupdate, hcount⟩ := bind_eq_ok_iff.1 heq
        exact ⟨t₁, ht.update_plan hupdate hsource, hcount⟩
      · exact ⟨t, ⟨.refl t, fun _ => rfl⟩, heq⟩
  obtain ⟨hreplans, hdestination⟩ := ht₁
  obtain ⟨hreplans', hdestination'⟩ := (hreplans.shape.laid ht).update_plan hcount fun a b hb => by
    obtain ⟨-, rfl⟩ := Region.setCount_eq_ok_iff.1 hb
    exact ⟨⟨rfl, Region.liveWords_packState a _, rfl, rfl, rfl, rfl⟩, rfl⟩
  exact ⟨hreplans.trans hreplans', fun q => (hdestination' q).trans (hdestination q)⟩

/-- A packing that came as far as this has planned region `q`, if that is one of its source
regions. -/
def Passed (t : RegionTable) (q : ℕ) : Packing → Prop
  | .fits _ => True
  | .stopped _ source => t.regionStart q < source

lemma Passed.of_shape {packing : Packing} (h : t.Passed q packing) (hshape : t.SameShape t') :
    t'.Passed q packing := by
  cases packing with
  | fits target => trivial
  | stopped target source =>
    show t'.regionStart q < source
    rw [hshape.regionStart_eq]
    exact h

/-- A packing of `count` regions from `r` on made the table `t'` from `t`.  The data of a region
that it has planned has room, and so has that of a region to which it gave a new destination. -/
structure LeavesRoom (t t' : RegionTable) (r count : ℕ) (packing : Packing) : Prop where
  replans : t.Replans t'
  moved : ∀ q, (t'.regions.get q).destination = (t.regions.get q).destination
    ∨ (t'.regions.get q).HasRoom
  passed : ∀ q, r ≤ q → q < r + count → t.Passed q packing → (t'.regions.get q).HasRoom

section

variable {count : ℕ} {packing : Packing} (hreplans : t.Replans t')
  (hother : ∀ q, q ≠ r → (t'.regions.get q).destination = (t.regions.get q).destination)
  (hroom : (t'.regions.get r).HasRoom)
include hreplans hother hroom

/-- The packing goes on behind region `r`. -/
lemma LeavesRoom.succ (h : LeavesRoom t' t'' (r + 1) count packing) :
    LeavesRoom t t'' r (count + 1) packing := by
  have hroom' : (t''.regions.get r).HasRoom :=
    (h.moved r).elim (hroom.congr (h.replans.sizes r).dataWords) id
  refine ⟨hreplans.trans h.replans, fun q => ?_, fun q h1 h2 hq => ?_⟩ <;> by_cases hqr : q = r
  · exact hqr ▸ Or.inr hroom'
  · rw [← hother q hqr]
    exact h.moved q
  · exact hqr ▸ hroom'
  · exact h.passed q (by omega) (by omega) (hq.of_shape hreplans.shape)

/-- The packing stops at region `r`, which has its destination already. -/
lemma LeavesRoom.stop (target : ℕ) :
    LeavesRoom t t' r count (.stopped target (t'.regionStart r)) := by
  refine ⟨hreplans, fun q => ?_, fun q h1 h2 hq => ?_⟩
  · by_cases hqr : q = r
    · exact hqr ▸ Or.inr hroom
    · exact Or.inl (hother q hqr)
  · have hle := Nat.mul_le_mul_right t.geometry.regionBytes h1
    have hlt : t.regionStart q < t'.regionStart r := hq
    rw [hreplans.shape.regionStart_eq, regionStart, regionStart] at hlt
    omega

end

lemma packRegions_ok (ht : t.Laid) {targetEnd count target : ℕ} {packing : Packing}
    (heq : packRegions targetEnd count r target t = .ok (packing, t')) :
    LeavesRoom t t' r count packing := by
  induction count generalizing r target t with
  | zero =>
    cases heq
    exact ⟨.refl _, fun _ => Or.inl rfl, fun q h1 h2 => by omega⟩
  | succ count ih =>
    rw [packRegions] at heq
    obtain ⟨t₁, hupdate, heq⟩ := bind_eq_ok_iff.1 heq
    obtain ⟨a, ha, heq⟩ := bind_eq_ok_iff.1 heq
    obtain ⟨hr, b, hb, rfl⟩ := update_eq_ok_iff.1 hupdate
    cases pure_eq_ok_iff.1 hb
    obtain ⟨-, rfl⟩ := region_eq_ok_iff.1 ha
    have hself := ht.get_setRegion_self (a := { t.regions.get r with destination := target }) hr
    have hreplans := ht.replans_setRegion (b := { t.regions.get r with destination := target }) hr
      ⟨rfl, rfl, rfl, rfl, rfl, rfl⟩
    have hother : ∀ q, q ≠ r →
        ((t.setRegion r { t.regions.get r with destination := target }).regions.get q).destination
        = (t.regions.get q).destination := fun q hq => by rw [Laid.get_setRegion_of_ne hq]
    generalize t.setRegion r { t.regions.get r with destination := target }
      = t₁ at heq hself hreplans hother
    have ht₁ := hreplans.shape.laid ht
    dsimp only at heq
    by_cases hempty : (t₁.regions.get r).dataWords = 0
    · rw [if_pos hempty] at heq
      exact (ih ht₁ heq).succ hreplans hother (Or.inl hempty)
    · rw [if_neg hempty] at heq
      obtain ⟨next, hnext, heq⟩ := bind_eq_ok_iff.1 heq
      have hroom : (t₁.regions.get r).HasRoom := Or.inr (by
        rw [hself] at hnext ⊢
        exact (Word.add_eq_ok_iff.1 hnext).1)
      split at heq
      · split at heq
        · obtain ⟨_, h, -⟩ := bind_eq_ok_iff.1 heq
          cases h
        · cases heq
          exact .stop hreplans hother hroom target
      · obtain ⟨t₂, hplace, heq⟩ := bind_eq_ok_iff.1 heq
        obtain ⟨hreplans₂, hdestination⟩ := placeRegion_ok ht₁ hplace
        exact (ih (hreplans₂.shape.laid ht₁) heq).succ (hreplans.trans hreplans₂)
          (fun q hq => (hdestination q).trans (hother q hq))
            (hroom.congr (hreplans₂.sizes r).dataWords (hdestination r))

/-! ## Keeping in place -/

/-- Keeping regions in place changes no other region, and nothing of what reaches into them. -/
lemma keepRegions_ok (ht : t.Laid) {count : ℕ} (heq : keepRegions count r t = .ok t') :
    t.SameShape t'
    ∧ t'.blocks = t.blocks
    ∧ (∀ q, (t'.regions.get q).partialWords = (t.regions.get q).partialWords
      ∧ (t'.regions.get q).blocksFilled = (t.regions.get q).blocksFilled)
    ∧ ∀ q, ¬(r ≤ q ∧ q < r + count) → t'.regions.get q = t.regions.get q := by
  induction count generalizing r t with
  | zero =>
    cases heq
    exact ⟨.refl _, rfl, fun _ => ⟨rfl, rfl⟩, fun _ _ => rfl⟩
  | succ count ih =>
    rw [keepRegions] at heq
    obtain ⟨t₁, hupdate, heq⟩ := bind_eq_ok_iff.1 heq
    obtain ⟨hr, b, hb, rfl⟩ := update_eq_ok_iff.1 hupdate
    obtain ⟨a, ha, hb⟩ := bind_eq_ok_iff.1 hb
    obtain ⟨words, -, hb⟩ := bind_eq_ok_iff.1 hb
    obtain ⟨-, rfl⟩ := Region.setCount_eq_ok_iff.1 ha
    obtain rfl := Region.setLiveWords_eq_ok hb
    obtain ⟨hshape, hblocks, hkept, hother⟩ := ih (ht.setRegion r _) heq
    refine ⟨(t.sameShape_setRegion r _).trans hshape, hblocks, fun q => ?_, fun q hq => ?_⟩
    · rw [(hkept q).1, (hkept q).2]
      by_cases hqr : q = r
      · subst hqr
        rw [ht.get_setRegion_self hr]
        exact ⟨rfl, rfl⟩
      · rw [Laid.get_setRegion_of_ne hqr]
        exact ⟨rfl, rfl⟩
    · rw [hother q (by omega), Laid.get_setRegion_of_ne (by omega)]

/-! ## Built tables -/

/-- The table `t` is made from `t₀` by accounting the objects `objs`, packing regions, keeping
regions in place and consulting the table, in any order and any number of times, except that blocks
are recorded when the objects that were accounted are those that are marked in `m`.  The regions
`kept` have been kept in place.  The regions `planned` have been packed since the last object in
them was accounted. -/
inductive Built (m : MarkBitmap) (t₀ : RegionTable) :
    List Span → (kept planned : ℕ → Prop) → RegionTable → Prop
  | start : Built m t₀ [] (fun _ => False) (fun _ => False) t₀
  | account {objs : List Span} {kept planned : ℕ → Prop} {t t' : RegionTable} {o : Span}
      (built : Built m t₀ objs kept planned t)
      (unfilled : ∀ r, (t.regions.get r).blocksFilled = false)
      (added : t.addObject (t₀.covered.addr o.start) o.words = .ok t') :
      Built m t₀ (o :: objs) kept (fun r => planned r
        ∧ (o.past ≤ r * t₀.geometry.regionWords
          ∨ r * t₀.geometry.regionWords + t₀.geometry.regionWords ≤ o.start)) t'
  | pack {objs : List Span} {kept planned : ℕ → Prop} {t t' : RegionTable}
      {targetBeg targetEnd sourceBeg sourceEnd first last : ℕ} {packing : Packing}
      (built : Built m t₀ objs kept planned t) (firstRegion : t₀.regionOf sourceBeg = .ok first)
      (lastRegion : t₀.regionUpTo sourceEnd = .ok last)
      (packed : t.summarize targetBeg targetEnd sourceBeg sourceEnd = .ok (packing, t')) :
      Built m t₀ objs kept (fun r => planned r ∨ (first ≤ r ∧ r < last ∧ t₀.Passed r packing)) t'
  | keep {objs : List Span} {kept planned : ℕ → Prop} {t t' : RegionTable}
      {addr stop first last : ℕ} (built : Built m t₀ objs kept planned t)
      (firstRegion : t₀.regionOf addr = .ok first) (lastRegion : t₀.regionOf stop = .ok last)
      (keeps : t.keepInPlace addr stop = .ok t') :
      Built m t₀ objs (fun r => kept r ∨ (first ≤ r ∧ r < last)) planned t'
  | consult {objs : List Span} {kept planned : ℕ → Prop} {t t' : RegionTable}
      (built : Built m t₀ objs kept planned t) (marks : m.Marks objs)
      (consulted : Consulted m t t') : Built m t₀ objs kept planned t'

/-- What is known of a table in which the objects `objs` have been accounted. -/
structure Prepared (t : RegionTable) (objs : List Span) (kept planned : ℕ → Prop) : Prop where
  partial_eq : ∀ r, (t.regions.get r).partialWords = partialOf objs t.geometry.regionWords r
  accounts : ∀ r, ¬kept r → (t.regions.get r).Accounts objs t.geometry.regionWords r
  room : ∀ r, planned r → ¬kept r → (t.regions.get r).HasRoom
  valid : ∀ r, t.BlocksValid objs r

namespace Prepared

variable {kept planned : ℕ → Prop}

/-- Nothing has been accounted in a cleared table. -/
lemma of_cleared (h : t.Cleared) : t.Prepared [] (fun _ => False) (fun _ => False) := by
  have haccounts : ∀ r, (t.regions.get r).Accounts [] t.geometry.regionWords r := fun r => by
    rw [h r]
    exact Region.accounts_nil _ r
  exact ⟨fun r => (haccounts r).partial_eq, fun r _ => haccounts r, fun r hr => hr.elim,
    fun r => .of_unfilled (by rw [h r])⟩

section

variable (h : t.Prepared objs kept planned)
include h

lemma account (ht : t.Laid) (hsep : Separate (o :: objs)) (hpast : o.past ≤ t.covered.words)
    (hunfilled : ∀ r, (t.regions.get r).blocksFilled = false)
    (heq : t.addObject (t.covered.addr o.start) o.words = .ok t') :
    t.SameShape t' ∧ t'.Prepared (o :: objs) kept fun r =>
      planned r ∧ (o.past ≤ r * t.geometry.regionWords
        ∨ r * t.geometry.regionWords + t.geometry.regionWords ≤ o.start) := by
  obtain ⟨hshape, hget⟩ := addObject_ok ht hpast heq
  have hpos := t.geometry.regionWords_pos
  have hlt := hsep.start_lt_past List.mem_cons_self
  refine ⟨hshape, fun r => ?_, fun r hr => ?_, fun r hplanned hr => ?_,
    fun r => .of_unfilled (unfilled_addObject ht hpast heq hunfilled r)⟩
  · rw [hget, hshape.geometry]
    exact Region.partialWords_account hsep _ (h.partial_eq r)
  · rw [hget, hshape.geometry]
    exact (h.accounts r hr).account _ hsep hpos ht.regionWords_lt
  · rw [hget, Region.account_of_apart hlt hplanned.2]
    exact h.room r hplanned.1 hr

lemma pack {targetEnd count target first : ℕ} {packing : Packing} (ht : t.Laid)
    (heq : packRegions targetEnd count first target t = .ok (packing, t')) : t.SameShape t'
      ∧ t'.Prepared objs kept fun r =>
        planned r ∨ (first ≤ r ∧ r < first + count ∧ t.Passed r packing) := by
  obtain ⟨hreplans, hmoved, hpassed⟩ := packRegions_ok ht heq
  have hdata := fun r => (hreplans.sizes r).dataWords
  refine ⟨hreplans.shape, fun r => ?_, fun r hr => ⟨?_, ?_⟩, fun r hplanned hr => ?_, fun r => ?_⟩
  · rw [(hreplans.sizes r).partialWords, hreplans.shape.geometry, h.partial_eq r]
  · rw [(hreplans.sizes r).partialWords, hreplans.shape.geometry, h.partial_eq r]
  · rw [hdata r, hreplans.shape.geometry, (h.accounts r hr).data_eq]
  · rcases hplanned with hplanned | ⟨h1, h2, hpast⟩
    · exact (hmoved r).elim ((h.room r hplanned hr).congr (hdata r)) id
    · exact hpassed r h1 h2 hpast
  · exact (h.valid r).of_blocks hreplans.shape.geometry hreplans.blocks
      (hreplans.sizes r).blocksFilled

lemma keep {count first : ℕ} (ht : t.Laid) (heq : keepRegions count first t = .ok t') :
    t.SameShape t'
    ∧ t'.Prepared objs (fun r => kept r ∨ (first ≤ r ∧ r < first + count)) planned := by
  obtain ⟨hshape, hblocks, hkept, hother⟩ := keepRegions_ok ht heq
  refine ⟨hshape, fun r => ?_, fun r hr => ?_, fun r hplanned hr => ?_, fun r => ?_⟩
  · rw [(hkept r).1, hshape.geometry, h.partial_eq r]
  · rw [hother r fun hin => hr (Or.inr hin), hshape.geometry]
    exact h.accounts r fun hr' => hr (Or.inl hr')
  · rw [hother r fun hin => hr (Or.inr hin)]
    exact h.room r hplanned fun hr' => hr (Or.inl hr')
  · exact (h.valid r).of_blocks hshape.geometry hblocks (hkept r).2

lemma consistent (ht : t.Laid) (hm : m.Marks objs) (hcovered : m.covered = t.covered) :
    t.Consistent m objs :=
  ⟨ht, hm, hcovered, h.partial_eq, h.valid⟩

lemma refilled (hrefilled : Refilled objs t t') : t'.Prepared objs kept planned where
  partial_eq r := by
    rw [hrefilled.regions r, hrefilled.shape.geometry]
    exact h.partial_eq r
  accounts r hr := by
    rw [hrefilled.regions r, hrefilled.shape.geometry]
    exact ⟨(h.accounts r hr).partial_eq, (h.accounts r hr).data_eq⟩
  room r hplanned hr := by
    rw [hrefilled.regions r]
    exact h.room r hplanned hr
  valid r := hrefilled.valid r (h.valid r)

end

end Prepared

/-- Keeping the regions between two addresses in place. -/
lemma keepRegions_of_keepInPlace {addr stop first last : ℕ} (hfirst : t.regionOf addr = .ok first)
    (hlast : t.regionOf stop = .ok last) (heq : t.keepInPlace addr stop = .ok t') :
    keepRegions (last - first) first t = .ok t' := by
  rw [keepInPlace] at heq
  simp only [hfirst, hlast, ok_bind] at heq
  obtain ⟨_, -, heq⟩ := bind_eq_ok_iff.1 heq
  split at heq
  · cases heq
  obtain ⟨_, -, heq⟩ := bind_eq_ok_iff.1 heq
  split at heq
  · cases heq
  exact heq

section

variable {kept planned : ℕ → Prop} (ht : t₀.Laid) (hcleared : t₀.Cleared)
include ht hcleared

/-- Each step keeps what is known. -/
theorem Built.prepared (hcovered : m.covered = t₀.covered) (hsep : Separate objs)
    (hpast : ∀ o ∈ objs, o.past ≤ t₀.covered.words) (h : Built m t₀ objs kept planned t) :
    t₀.SameShape t ∧ t.Prepared objs kept planned := by
  induction h with
  | start => exact ⟨.refl t₀, .of_cleared hcleared⟩
  | @account objs kept planned t t' o _ unfilled added ih =>
    obtain ⟨hshape, hprepared⟩ := ih hsep.tail fun o' ho' => hpast o' (List.mem_cons_of_mem _ ho')
    rw [← hshape.covered] at added hpast
    obtain ⟨hshape', hprepared'⟩ :=
      hprepared.account (hshape.laid ht) hsep (hpast o List.mem_cons_self) unfilled added
    rw [hshape.geometry] at hprepared'
    exact ⟨hshape.trans hshape', hprepared'⟩
  | @pack objs kept planned t t' _ _ _ _ first last packing _ firstRegion lastRegion packed ih =>
    obtain ⟨hshape, hprepared⟩ := ih hsep hpast
    rw [summarize, hshape.regionUpTo_eq, lastRegion, ok_bind, hshape.regionOf_eq, firstRegion,
      ok_bind] at packed
    obtain ⟨hshape', hprepared'⟩ := hprepared.pack (hshape.laid ht) packed
    refine ⟨hshape.trans hshape',
      { hprepared' with room := fun r hplanned => hprepared'.room r (hplanned.imp_right ?_) }⟩
    rintro ⟨h1, h2, hpassed⟩
    exact ⟨h1, by omega, hpassed.of_shape hshape⟩
  | @keep objs kept planned t t' addr stop first last _ firstRegion lastRegion keeps ih =>
    obtain ⟨hshape, hprepared⟩ := ih hsep hpast
    obtain ⟨hshape', hprepared'⟩ := hprepared.keep (hshape.laid ht)
      (keepRegions_of_keepInPlace ((hshape.regionOf_eq _).trans firstRegion)
        ((hshape.regionOf_eq _).trans lastRegion) keeps)
    have hkept : ∀ r, ¬(kept r ∨ (first ≤ r ∧ r < last)) →
        ¬(kept r ∨ (first ≤ r ∧ r < first + (last - first))) :=
      fun r => mt (Or.imp_right fun hin => ⟨hin.1, by omega⟩)
    exact ⟨hshape.trans hshape', { hprepared' with
      accounts := fun r hr => hprepared'.accounts r (hkept r hr)
      room := fun r hplanned hr => hprepared'.room r hplanned (hkept r hr) }⟩
  | @consult objs kept planned t t' _ marks consulted ih =>
    obtain ⟨hshape, hprepared⟩ := ih hsep hpast
    have hrefilled :=
      consulted.refilled
        (hprepared.consistent (hshape.laid ht) marks (hcovered.trans hshape.covered.symm))
    exact ⟨hshape.trans hrefilled.shape, hprepared.refilled hrefilled⟩

/-- Objects were accounted in a cleared table, regions packed and others kept in place, and the
blocks of any regions recorded. An object start in a packed region is forwarded to where the scan
puts it, on whichever of its paths forwarding takes.  The blocks of each region can be recorded, and
neither that nor forwarding any address changes an answer that is given afterwards. -/
theorem forward_eq_scanForward (hm : m.Marks objs) (hcovered : m.covered = t₀.covered)
    (hbuilt : Built m t₀ objs kept planned t) :
    (∀ o ∈ objs, planned (o.start / t₀.geometry.regionWords) →
      ¬kept (o.start / t₀.geometry.regionWords) →
      ∃ result t', t.forward m (t₀.covered.addr o.start) = .ok (result, t')
        ∧ t.scanForward m (t₀.covered.addr o.start) = .ok result)
    ∧ (∀ r, r < t₀.geometry.regionCount → ∃ t', t.fillBlocks m r = .ok t' ∧ SameAnswers m t t')
    ∧ ∀ addr result t' t'', t.forward m addr = .ok (result, t') → Consulted m t' t'' →
      SameAnswers m t t'' := by
  obtain ⟨hshape, hprepared⟩ :=
    hbuilt.prepared ht hcleared hcovered hm.separate (hcovered ▸ hm.past_le)
  have hconsistent := hprepared.consistent (hshape.laid ht) hm (hcovered.trans hshape.covered.symm)
  refine ⟨fun o ho hplanned hkept => ?_, fun r hr => ?_, fun addr result t' t'' heq h =>
    ((Consulted.refl.forward heq).trans h).sameAnswers hconsistent⟩
  · rw [← hshape.covered]
    rw [← hshape.geometry] at hplanned hkept
    exact hconsistent.forward_start ho rfl (hprepared.accounts _ hkept)
      (hprepared.room _ hplanned hkept)
  · obtain ⟨t', heq, -⟩ :=
      fillBlocks_eq hconsistent.laid hm hconsistent.covered (hshape.geometry ▸ hr)
        (hprepared.partial_eq r)
    exact ⟨t', heq, (Consulted.refl.fill heq).sameAnswers hconsistent⟩

end

/-- Eight regions of 64 words in blocks of 8. -/
def eightRegions : RegionTable :=
  .empty ⟨4096, 4096⟩ (.ofLogs 6 3 8 (by decide))

/-- An object over three regions and one behind it, packed to the start of the range. -/
def packedPair : Except Fault RegionTable := do
  let t ← eightRegions.addObject (4096 + 8 * 60) 100
  let t ← t.addObject (4096 + 8 * 170) 5
  let (packing, t) ← t.summarize 4096 8192 4096 8192
  if packing = .fits (4096 + 8 * 105) then pure t else throw (.notLive 0)

/-- The second object is forwarded as it is scanned, when the blocks of its region have been
recorded. -/
theorem forward_eq_scanForward_packedPair :
    ∃ m t t', m.Marks [⟨170, 5⟩, ⟨60, 100⟩] ∧ packedPair = .ok t ∧ t.fillBlocks m 2 = .ok t'
      ∧ (∃ result t'', t'.forward m (4096 + 8 * 170) = .ok (result, t'')
        ∧ t'.scanForward m (4096 + 8 * 170) = .ok result)
      ∧ ∀ addr result t'' t₁, t'.forward m addr = .ok (result, t'') → Consulted m t'' t₁ →
        SameAnswers m t' t₁ := by
  have ht : eightRegions.Laid := laid_empty (by decide) (by decide) (by decide) (by decide)
  have hcleared : eightRegions.Cleared := cleared_empty _ _
  have hsep : Separate [(⟨60, 100⟩ : Span)] := ⟨by decide, by simp⟩
  have hsep' : Separate [(⟨170, 5⟩ : Span), ⟨60, 100⟩] :=
    hsep.cons (by decide) (by simp [Span.Apart, Span.past])
  obtain ⟨m₁, -, hm₁, hcovered₁⟩ := (MarkBitmap.marks_unmarked
    (show (⟨4096, 4096⟩ : Extent).start + 4096 < wordValues by decide)).mark_eq
      (o := ⟨60, 100⟩) hsep (by decide) (by decide)
  obtain ⟨m, -, hm, hcovered⟩ :=
    hm₁.mark_eq (o := ⟨170, 5⟩) hsep' (by rw [hcovered₁]; decide) (by rw [hcovered₁]; decide)
  have hsame : m.covered = eightRegions.covered := hcovered.trans hcovered₁
  cases hpacked : packedPair with
  | error e =>
    have hok : packedPair.isOk = true := by decide
    rw [hpacked] at hok
    cases hok
  | ok t =>
    obtain ⟨t₁, hadd₁, hrest⟩ := bind_eq_ok_iff.1 hpacked
    obtain ⟨t₂, hadd₂, hrest⟩ := bind_eq_ok_iff.1 hrest
    obtain ⟨⟨packing, t₃⟩, hsummarize, hrest⟩ := bind_eq_ok_iff.1 hrest
    obtain ⟨rfl, rfl⟩ : packing = .fits (4096 + 8 * 105) ∧ t₃ = t := by
      dsimp only at hrest
      split at hrest
      case isTrue hfits => exact ⟨hfits, pure_eq_ok_iff.1 hrest⟩
      case isFalse => cases hrest
    have hunfilled : ∀ r, (eightRegions.regions.get r).blocksFilled = false := fun r => by
      rw [hcleared r]
    have hunfilled₁ := unfilled_addObject (o := ⟨60, 100⟩) ht (by decide) hadd₁ hunfilled
    have hbuilt := Built.pack
      (.account (o := ⟨170, 5⟩) (.account (o := ⟨60, 100⟩) (.start (m := m)) hunfilled hadd₁)
        hunfilled₁ hadd₂)
      (show eightRegions.regionOf 4096 = .ok 0 by decide)
        (show eightRegions.regionUpTo 8192 = .ok 8 by decide) hsummarize
    obtain ⟨t', hfill, -⟩ := (forward_eq_scanForward ht hcleared hm hsame hbuilt).2.1 2 (by decide)
    obtain ⟨hstarts, -, hanswers⟩ :=
      forward_eq_scanForward ht hcleared hm hsame (.consult hbuilt hm (.fill .refl hfill))
    exact ⟨m, t₃, t', hm, rfl, hfill,
      hstarts ⟨170, 5⟩ (by decide) (Or.inr ⟨by decide, by decide, trivial⟩) id, hanswers⟩

end RegionTable

end MarkCompact
