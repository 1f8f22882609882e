import MarkCompact.DensePrefix
import MarkCompact.Proofs.Addresses

/-!
# Searches by halves

A search by halves goes on in front of its probe or behind it, and leaves the probe out both ways;
it ends at a probe that is neither too far to the right nor too far to the left, or where its bounds
meet.  `Halving` says so without a limit on the number of probes.  That a search ends does not
depend on what it finds (`Halving.ends`), and what holds of its bounds from probe to probe holds of
its end (`Halving.keeps`).

Main statements: `firstDeadSpace_of_halving` and `deadWoodLimit_of_halving` (the searches over a
plan are such searches).
-/

namespace MarkCompact

/-- What a search between two bounds probes. -/
def middle (left right : ℕ) : ℕ :=
  left + (right - left) / 2

/-- The search between the bounds `left` and `right` ends, at `found`.  The left bound is never too
far to the right. -/
inductive Halving (TooFar TooNear : ℕ → Prop) : (left right found : ℕ) → Prop
  | done {left right : ℕ} (hle : right ≤ left) : Halving TooFar TooNear left right left
  | inFront {left right found : ℕ} (hlt : left < right)
      (hfar : left < middle left right ∧ TooFar (middle left right))
      (rest : Halving TooFar TooNear left (middle left right - 1) found) :
      Halving TooFar TooNear left right found
  | behind {left right found : ℕ} (hlt : left < right)
      (hnot : ¬(left < middle left right ∧ TooFar (middle left right)))
      (hnear : TooNear (middle left right))
      (rest : Halving TooFar TooNear (middle left right + 1) right found) :
      Halving TooFar TooNear left right found
  | atProbe {left right : ℕ} (hlt : left < right)
      (hnot : ¬(left < middle left right ∧ TooFar (middle left right)))
      (hnot' : ¬TooNear (middle left right)) : Halving TooFar TooNear left right (middle left right)

variable {TooFar TooNear : ℕ → Prop} {budget beg found hi left lo right stop tries : ℕ}

lemma le_middle (left right : ℕ) : left ≤ middle left right :=
  Nat.le_add_right ..

/-- The right bound is never probed. -/
lemma middle_lt (hlt : left < right) : middle left right < right := by
  rw [middle]
  omega

namespace Halving

/-- Every search ends: each probe leaves less to search. -/
theorem ends (TooFar TooNear : ℕ → Prop) (left right : ℕ) :
    ∃ found, Halving TooFar TooNear left right found := by
  induction hn : right - left using Nat.strong_induction_on generalizing left right with
  | _ n ih =>
    by_cases hdone : right ≤ left
    · exact ⟨left, .done hdone⟩
    have hlt := not_le.1 hdone
    have hlow := le_middle left right
    have hhigh := middle_lt hlt
    by_cases hfar : left < middle left right ∧ TooFar (middle left right)
    · obtain ⟨found, rest⟩ :=
        ih _ (show middle left right - 1 - left < n by omega) left (middle left right - 1) rfl
      exact ⟨found, .inFront hlt hfar rest⟩
    by_cases hnear : TooNear (middle left right)
    · obtain ⟨found, rest⟩ :=
        ih _ (show right - (middle left right + 1) < n by omega) (middle left right + 1) right rfl
      exact ⟨found, .behind hlt hfar hnear rest⟩
    · exact ⟨_, .atProbe hlt hfar hnear⟩

/-- What the probes from `lo` up to `hi`, itself included, tell about the bounds that they lead
to. -/
structure Tells (TooFar TooNear Before Behind : ℕ → Prop) (lo hi : ℕ) : Prop where
  of_far : ∀ m, lo ≤ m → m ≤ hi → TooFar m → Behind (m - 1)
  of_not_far : ∀ m, lo ≤ m → m ≤ hi → ¬TooFar m → Before m
  of_near : ∀ m, lo ≤ m → m ≤ hi → Before m → TooNear m → Before (m + 1)
  of_not_near : ∀ m, lo ≤ m → m ≤ hi → ¬TooNear m → Behind m

variable {Before Behind : ℕ → Prop}

/-- A probe that does not lead to the left is the left bound, or it is not too far to the right. -/
lemma Tells.before_middle (h : Tells TooFar TooNear Before Behind lo hi) (hlo : lo ≤ left)
    (hlt : left < right) (hhi : right ≤ hi) (hbefore : Before left)
    (hnot : ¬(left < middle left right ∧ TooFar (middle left right))) :
    Before (middle left right) := by
  have hhigh := middle_lt hlt
  rcases (le_middle left right).eq_or_lt with heq | hinner
  · rwa [← heq]
  · exact h.of_not_far _ (by omega) (by omega) fun hfar => hnot ⟨hinner, hfar⟩

/-- What probes tell about the bounds stays true up to the end of the search. -/
theorem keeps (h : Halving TooFar TooNear left right found)
    (htells : Tells TooFar TooNear Before Behind lo hi) (hlo : lo ≤ left) (hle : left ≤ right)
    (hhi : right ≤ hi) (hbefore : Before left) (hbehind : Behind right) :
    left ≤ found ∧ found ≤ right ∧ Before found ∧ Behind found := by
  induction h with
  | @done left right hdone =>
    obtain rfl : left = right := by omega
    exact ⟨le_rfl, le_rfl, hbefore, hbehind⟩
  | @inFront left right found hlt hfar rest ih =>
    have hhigh := middle_lt hlt
    have hrest :=
      ih hlo (by omega) (by omega) hbefore (htells.of_far _ (by omega) (by omega) hfar.2)
    exact ⟨hrest.1, by omega, hrest.2.2⟩
  | @behind left right found hlt hnot hnear rest ih =>
    have hlow := le_middle left right
    have hhigh := middle_lt hlt
    have hrest := ih (by omega) (by omega) hhi
      (htells.of_near _ (by omega) (by omega) (htells.before_middle hlo hlt hhi hbefore hnot)
        hnear) hbehind
    exact ⟨by omega, hrest.2⟩
  | @atProbe left right hlt hnot hnot' =>
    have hlow := le_middle left right
    have hhigh := middle_lt hlt
    exact ⟨hlow, hhigh.le, htells.before_middle hlo hlt hhi hbefore hnot,
      htells.of_not_near _ (by omega) (by omega) hnot'⟩

/-- What is found lies between the bounds. -/
lemma between (h : Halving TooFar TooNear left right found) (hle : left ≤ right) :
    left ≤ found ∧ found ≤ right := by
  have htells : Tells TooFar TooNear (fun _ => True) (fun _ => True) left right :=
    ⟨fun _ _ _ _ => trivial, fun _ _ _ _ => trivial, fun _ _ _ _ _ => trivial,
      fun _ _ _ _ => trivial⟩
  obtain ⟨h1, h2, -⟩ := h.keeps htells le_rfl hle le_rfl trivial trivial
  exact ⟨h1, h2⟩

end Halving

/-! ## The searches over a plan -/

namespace RegionTable

variable {t : RegionTable}

/-- No region from `lo` up to `hi`, itself included, is planned to move to the right. -/
def MovesLeft (t : RegionTable) (lo hi : ℕ) : Prop :=
  ∀ r, lo ≤ r → r ≤ hi → r < t.geometry.regionCount
    ∧ (t.regions.get r).destination ≤ t.covered.addr (r * t.geometry.regionWords)

/-- Region `r` moves to the left, as there is dead space in front of it. -/
def DeadToTheLeft (t : RegionTable) (r : ℕ) : Prop :=
  (t.regions.get r).destination < t.regionStart r

instance (t : RegionTable) : DecidablePred t.DeadToTheLeft :=
  fun _ => inferInstanceAs (Decidable (_ < _))

/-- The data of region `r` takes all of its words. -/
def IsFull (t : RegionTable) (r : ℕ) : Prop :=
  (t.regions.get r).dataWords = t.geometry.regionWords

instance (t : RegionTable) : DecidablePred t.IsFull :=
  fun _ => inferInstanceAs (Decidable (_ = _))

/-! ### For dead space -/

section

variable (ht : t.MovesLeft lo hi) (hlo : lo ≤ left) (hhi : right ≤ hi)
include ht hlo hhi

lemma searchDeadSpace_probe (hlt : left < right) : t.searchDeadSpace (tries + 1) left right
    = if left < middle left right ∧ t.DeadToTheLeft (middle left right) then
        t.searchDeadSpace tries left (middle left right - 1)
      else if t.IsFull (middle left right) then t.searchDeadSpace tries
        (middle left right + 1) right
      else .ok (middle left right) := by
  have hlow := le_middle left right
  have hhigh := middle_lt hlt
  obtain ⟨hcount, hmoves⟩ := ht (middle left right) (by omega) (by omega)
  rw [searchDeadSpace, if_neg (not_le.2 hlt), ← middle]
  dsimp only
  rw [Laid.region_eq hcount, ok_bind, Laid.regionStart?_eq hcount.le, ok_bind,
    if_neg (not_lt.2 hmoves), ← Laid.regionStart_eq]
  simp only [hhigh, true_and]
  rfl

lemma searchDeadSpace_of_halving (h : Halving t.DeadToTheLeft t.IsFull left right found)
    (htries : right - left < tries) :
    t.searchDeadSpace tries left right = .ok found := by
  induction h generalizing tries with
  | done hle =>
    obtain ⟨tries, rfl⟩ := Nat.exists_eq_add_one_of_ne_zero (Nat.ne_zero_of_lt htries)
    rw [searchDeadSpace, if_pos hle]
    rfl
  | inFront hlt hfar rest ih =>
    have hhigh := middle_lt hlt
    obtain ⟨tries, rfl⟩ := Nat.exists_eq_add_one_of_ne_zero (Nat.ne_zero_of_lt htries)
    rw [searchDeadSpace_probe ht hlo hhi hlt, if_pos hfar]
    exact ih hlo (by omega) (by omega)
  | @behind left right found hlt hnot hnear rest ih =>
    have hlow := le_middle left right
    obtain ⟨tries, rfl⟩ := Nat.exists_eq_add_one_of_ne_zero (Nat.ne_zero_of_lt htries)
    rw [searchDeadSpace_probe ht hlo hhi hlt, if_neg hnot, if_pos hnear]
    exact ih (by omega) hhi (by omega)
  | atProbe hlt hnot hnot' =>
    obtain ⟨tries, rfl⟩ := Nat.exists_eq_add_one_of_ne_zero (Nat.ne_zero_of_lt htries)
    rw [searchDeadSpace_probe ht hlo hhi hlt, if_neg hnot, if_neg hnot']

end

/-- The search for dead space comes to what it ends at without a limit on its probes. -/
theorem firstDeadSpace_of_halving (ht : t.MovesLeft beg (stop - 1)) (hlt : beg < stop)
    (h : Halving t.DeadToTheLeft t.IsFull beg (stop - 1) found) :
    t.firstDeadSpace beg stop = .ok found := by
  rw [firstDeadSpace, if_pos hlt]
  exact searchDeadSpace_of_halving ht le_rfl le_rfl h (by omega)

/-! ### For the end of a budget -/

section

variable {dead : ℕ → ℕ} (hdead : ∀ r, lo ≤ r → r ≤ hi → t.deadToLeft r = .ok (dead r))
  (hlo : lo ≤ left) (hhi : right ≤ hi)
include hdead hlo hhi

lemma searchDeadWood_probe (hlt : left < right) : t.searchDeadWood budget (tries + 1) left right
    = if left < middle left right ∧ budget < dead (middle left right) then
        t.searchDeadWood budget tries left (middle left right - 1)
      else if dead (middle left right) < budget then t.searchDeadWood budget tries
        (middle left right + 1) right
      else .ok (middle left right) := by
  have hlow := le_middle left right
  have hhigh := middle_lt hlt
  rw [searchDeadWood, if_neg (not_le.2 hlt), ← middle]
  dsimp only
  rw [hdead _ (by omega) (by omega), ok_bind]
  simp only [hhigh, true_and]
  rfl

lemma searchDeadWood_of_halving (h : Halving (budget < dead ·) (dead · < budget) left right found)
    (htries : right - left < tries) : t.searchDeadWood budget tries left right = .ok found := by
  induction h generalizing tries with
  | done hle =>
    obtain ⟨tries, rfl⟩ := Nat.exists_eq_add_one_of_ne_zero (Nat.ne_zero_of_lt htries)
    rw [searchDeadWood, if_pos hle]
    rfl
  | inFront hlt hfar rest ih =>
    have hhigh := middle_lt hlt
    obtain ⟨tries, rfl⟩ := Nat.exists_eq_add_one_of_ne_zero (Nat.ne_zero_of_lt htries)
    rw [searchDeadWood_probe hdead hlo hhi hlt, if_pos hfar]
    exact ih hlo (by omega) (by omega)
  | @behind left right found hlt hnot hnear rest ih =>
    have hlow := le_middle left right
    obtain ⟨tries, rfl⟩ := Nat.exists_eq_add_one_of_ne_zero (Nat.ne_zero_of_lt htries)
    rw [searchDeadWood_probe hdead hlo hhi hlt, if_neg hnot, if_pos hnear]
    exact ih (by omega) hhi (by omega)
  | atProbe hlt hnot hnot' =>
    obtain ⟨tries, rfl⟩ := Nat.exists_eq_add_one_of_ne_zero (Nat.ne_zero_of_lt htries)
    rw [searchDeadWood_probe hdead hlo hhi hlt, if_neg hnot, if_neg hnot']

end

/-- So does the search for the end of a budget. -/
theorem deadWoodLimit_of_halving {dead : ℕ → ℕ}
    (hdead : ∀ r, beg ≤ r → r < stop → t.deadToLeft r = .ok (dead r)) (hlt : beg < stop)
    (h : Halving (budget < dead ·) (dead · < budget) beg (stop - 1) found) :
    t.deadWoodLimit beg stop budget = .ok found := by
  rw [deadWoodLimit, if_pos hlt]
  exact searchDeadWood_of_halving (fun r h1 h2 => hdead r h1 (by omega)) le_rfl le_rfl h (by omega)

end RegionTable

end MarkCompact
