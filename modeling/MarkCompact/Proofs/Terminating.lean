import Mathlib.Algebra.BigOperators.Group.Finset.Basic
import Mathlib.Algebra.Order.BigOperators.Group.Finset
import Mathlib.Data.Fintype.BigOperators
import MarkCompact.WorkQueue

/-!
# Workers that terminate together

Some workers share a `Terminator`.  A worker that has found nothing to do offers to terminate, and
looks again when others are busy still.  `Quorum standing t` is what holds of the terminator `t` and
of the standing of the workers at any time.

Main statements: `Quorum.offer` and `Quorum.reconsider` (the two halves of an attempt),
`Quorum.closing` (once a worker has finished all of them are about to) and `Quorum.reconsider_eq_ok`
(nothing overflows).
-/

namespace MarkCompact

variable {n : ℕ} {w : Fin n} {t t' : Terminator}

/-- In a sum over all workers, a change of one of them takes out what was and puts in what is. -/
lemma sum_update_add {A β : Type} [AddCommMonoid A] (f : β → A) (g : Fin n → β)
    (w : Fin n) (x : β) :
    ∑ v, f (Function.update g w x v) + f (g w) = ∑ v, f (g v) + f x := by
  rw [← Finset.add_sum_erase _ _ (Finset.mem_univ w),
    ← Finset.add_sum_erase _ (fun v => f (g v)) (Finset.mem_univ w), Function.update_self,
    Finset.sum_congr rfl fun v hv =>
      congrArg f (Function.update_of_ne (Finset.ne_of_mem_erase hv) x g)]
  rw [add_right_comm, add_right_comm (f (g w)), add_comm (f x)]

/-- How a worker stands to termination. -/
inductive Standing where
  /-- Will look for work everywhere before it offers to terminate. -/
  | working
  /-- Has found nothing to do. -/
  | hungry
  /-- Has offered to terminate. -/
  | offered
  | finished
  deriving DecidableEq, Repr

namespace Standing

/-- The worker counts as busy. -/
def busy : Standing → ℕ
  | working => 1
  | hungry => 1
  | offered => 0
  | finished => 0

lemma busy_le (s : Standing) : s.busy ≤ 1 := by
  cases s <;> decide

end Standing

/-- The terminator counts the workers that are busy, and no worker has finished before all of them
have offered to. -/
structure Quorum (standing : Fin n → Standing) (t : Terminator) : Prop where
  workers : t.workers = n
  busy : n ≠ 1 → t.busy = ∑ w, (standing w).busy
  /-- A worker on its own does not offer. -/
  alone : n = 1 → ∀ w, standing w ≠ .offered
  closing : ∀ w, standing w = .finished → ∀ v, (standing v).busy = 0

namespace Quorum

variable {standing : Fin n → Standing}

/-- At first every worker is busy. -/
lemma forWorkers (n : ℕ) : Quorum (fun _ : Fin n => .working) (.forWorkers n) where
  workers := rfl
  busy _ := by simp [Terminator.forWorkers, Standing.busy]
  alone _ _ := nofun
  closing _ := nofun

variable (hq : Quorum standing t)
include hq

/-- There are no more busy workers than workers. -/
lemma busy_le (hn : n ≠ 1) : t.busy ≤ n := by
  rw [hq.busy hn]
  exact (Finset.sum_le_card_nsmul _ _ 1 fun v _ => (standing v).busy_le).trans (by simp)

/-- One worker changes its standing. -/
lemma replace {s : Standing} {busy : ℕ} (hbusy : n ≠ 1 → busy + (standing w).busy = t.busy + s.busy)
    (hs : n = 1 → s ≠ .offered) (hfinished : s = .finished → ∀ v, v ≠ w → (standing v).busy = 0)
    (hothers : s.busy ≠ 0 → ∀ v, standing v ≠ .finished) :
    Quorum (Function.update standing w s) { t with busy } where
  workers := hq.workers
  busy hn := by
    have hsum := sum_update_add Standing.busy standing w s
    have hnew := hbusy hn
    rw [hq.busy hn] at hnew
    show busy = _
    omega
  alone hn v := by
    rcases eq_or_ne v w with rfl | hne
    · rw [Function.update_self]
      exact hs hn
    · rw [Function.update_of_ne hne]
      exact hq.alone hn v
  closing u hu v := by
    rcases eq_or_ne u w with rfl | hne
    · rw [Function.update_self] at hu
      rcases eq_or_ne v u with rfl | hne'
      · rw [Function.update_self, hu]
        rfl
      · rw [Function.update_of_ne hne']
        exact hfinished hu v hne'
    · rw [Function.update_of_ne hne] at hu
      rcases eq_or_ne v w with rfl | hne'
      · rw [Function.update_self]
        exact not_not.1 fun hbusy => hothers hbusy u hu
      · rw [Function.update_of_ne hne']
        exact hq.closing u hu v

/-- As long as a worker is busy none has finished. -/
lemma ne_finished (hw : (standing w).busy ≠ 0) (v : Fin n) :
    standing v ≠ .finished := fun hv => hw (hq.closing v hv w)

/-- A busy worker stays busy, whatever it is at. -/
lemma keep {s : Standing} (hw : (standing w).busy = 1) (hs : s.busy = 1) :
    Quorum (Function.update standing w s) t :=
  hq.replace (fun _ => by rw [hw, hs]) (fun _ heq => by rw [heq] at hs; cases hs)
    (fun heq => by rw [heq] at hs; cases hs)
    fun _ => hq.ne_finished (by rw [hw]; exact one_ne_zero)

/-- A worker on its own has nobody to wait for. -/
lemma leave (hn : n = 1) : Quorum (Function.update standing w .finished) t := by
  subst hn
  exact hq.replace (fun hne => absurd rfl hne) (fun _ => nofun)
    (fun _ v hv => absurd (Subsingleton.elim v w) hv)
    fun hbusy => absurd rfl hbusy

/-- A worker offers to terminate, and has finished if it is the last one. -/
theorem offer {last : Bool} (hn : n ≠ 1) (hlt : n < wordValues) (hw : (standing w).busy = 1)
    (heq : t.offer = (last, t')) :
    Quorum (Function.update standing w (if last then .finished else .offered)) t' := by
  have hsum := Finset.add_sum_erase Finset.univ (fun v => (standing v).busy) (Finset.mem_univ w)
  have hbusy := hq.busy hn
  have hle := hq.busy_le hn
  rw [← hsum, hw] at hbusy
  rw [Terminator.offer, Prod.mk.injEq] at heq
  obtain ⟨rfl, rfl⟩ := heq
  have hless : (t.busy + (wordValues - 1)) % wordValues = t.busy - 1 := by
    rw [show t.busy + (wordValues - 1) = (t.busy - 1) + wordValues by omega, Nat.add_mod_right,
      Nat.mod_eq_of_lt (by omega)]
  rw [hless]
  have hzero : ∀ last : Bool, (if last then Standing.finished else .offered).busy = 0 := by decide
  refine hq.replace (fun _ => ?_) (fun h1 => absurd h1 hn) (fun hlast v hv => ?_)
    (fun hpos => absurd (hzero _) hpos)
  · rw [hw, hzero]
    omega
  · have hone : t.busy = 1 := by simpa using hlast
    have hrest : ∑ v ∈ Finset.univ.erase w, (standing v).busy = 0 := by omega
    exact Finset.sum_eq_zero_iff.1 hrest v (Finset.mem_erase.2 ⟨hv, Finset.mem_univ v⟩)

/-- A worker that has offered finishes, or takes its offer back and looks again. -/
theorem reconsider {ended : Bool} (hw : standing w = .offered)
    (heq : t.reconsider = .ok (ended, t')) :
    Quorum (Function.update standing w (if ended then .finished else .working)) t' := by
  have hn : n ≠ 1 := fun hn => hq.alone hn w hw
  have hbusy := hq.busy hn
  rw [Terminator.reconsider] at heq
  split at heq
  case isTrue hzero =>
    cases heq
    have hnone : ∑ v, (standing v).busy = 0 := hbusy.symm.trans hzero
    refine hq.replace (fun _ => ?_) (fun h1 => absurd h1 hn)
      (fun _ v _ => Finset.sum_eq_zero_iff.1 hnone v (Finset.mem_univ v))
      (fun hpos => absurd rfl hpos)
    rw [hw]
    rfl
  case isFalse hpos =>
    obtain ⟨busy, hadd, heq⟩ := bind_eq_ok_iff.1 heq
    cases heq
    obtain ⟨_, rfl⟩ := Word.add_eq_ok_iff.1 hadd
    refine hq.replace (fun _ => ?_) (fun h1 => absurd h1 hn) nofun (fun _ v hv => hpos ?_)
    · rw [hw]
      rfl
    · rw [hbusy]
      exact Finset.sum_eq_zero fun u _ => hq.closing v hv u

/-- Taking an offer back does not overflow. -/
lemma reconsider_eq_ok (hlt : n < wordValues) (hw : standing w = .offered) :
    ∃ ended t', t.reconsider = .ok (ended, t') := by
  have hn : n ≠ 1 := fun hn => hq.alone hn w hw
  have hless : ∑ v, (standing v).busy < ∑ _ : Fin n, 1 :=
    Finset.sum_lt_sum (fun v _ => (standing v).busy_le) ⟨w, Finset.mem_univ w, by rw [hw]; decide⟩
  rw [← hq.busy hn, ← Finset.card_eq_sum_ones, Finset.card_univ, Fintype.card_fin] at hless
  rw [Terminator.reconsider]
  split
  · exact ⟨_, _, rfl⟩
  · rw [Word.add_eq (by omega)]
    exact ⟨_, _, rfl⟩

/-- Once nobody is busy, all that look again are told to terminate. -/
lemma reconsider_of_idle (hw : standing w = .offered) (hidle : ∀ v, (standing v).busy = 0) :
    t.reconsider = .ok (true, t) := by
  have hn : n ≠ 1 := fun hn => hq.alone hn w hw
  rw [Terminator.reconsider, if_pos ((hq.busy hn).trans (Finset.sum_eq_zero fun v _ => hidle v))]
  rfl

end Quorum

end MarkCompact
