import Mathlib.Order.Bounds.Basic
import Mathlib.Order.Interval.Set.Defs
import MarkCompact.Proofs.BitSearch

/-!
# Ranges of a set of bits

A `Bitset` stands for the set of its members.  Operations on a range of bits go through words, of
which the first and the last lie partly outside of the range; what they come to is said here without
words.

Main statements: `Bitset.members_clear` (clearing takes a range away), `Bitset.firstIn_finds` and
`Bitset.lastIn_finds` (the searches give the least and the greatest member of a range) and
`Bitset.actsAsSet` (the checked operations all do).
-/

namespace MarkCompact.Bitset

variable {b : Bitset} {start stop r : ℕ}

/-- The bits that are set. -/
def members (b : Bitset) : Set ℕ :=
  {i | b.mem i = true}

/-- The bits that are set from `start` up to, not including, `stop`. -/
def membersIn (b : Bitset) (start stop : ℕ) : Set ℕ :=
  b.members ∩ Set.Ico start stop

lemma mem_membersIn {i : ℕ} : i ∈ b.membersIn start stop ↔ b.mem i = true ∧ start ≤ i ∧ i < stop :=
  Iff.rfl

/-! ## Searching -/

/-- A search upwards gives the least member of the range, and its end if there is none. -/
structure FindsLeast (b : Bitset) (start stop r : ℕ) : Prop where
  of_empty : b.membersIn start stop = ∅ → r = stop
  of_nonempty : (b.membersIn start stop).Nonempty → IsLeast (b.membersIn start stop) r

/-- A search downwards gives the greatest member of the range, if there is one. -/
structure FindsGreatest (b : Bitset) (start stop : ℕ) (found : Option ℕ) : Prop where
  of_empty : b.membersIn start stop = ∅ → found = none
  of_nonempty : (b.membersIn start stop).Nonempty →
    ∃ r, found = some r ∧ IsGreatest (b.membersIn start stop) r

theorem firstIn_finds (hb : b.Valid) (h : start ≤ stop) :
    b.FindsLeast start stop (b.firstIn start stop) := by
  have first := firstIn_spec hb h
  constructor
  · intro hempty
    refine first.eq_stop fun j hstart hstop hj => ?_
    exact Set.eq_empty_iff_forall_notMem.1 hempty j ⟨hj, hstart, hstop⟩
  · rintro ⟨i, hi, hstart, hstop⟩
    -- The search ends at the latest at the member that there is.
    have hle : b.firstIn start stop ≤ i := not_lt.1 fun hlt => first.before i hstart hlt hi
    have hlt : b.firstIn start stop < stop := lt_of_le_of_lt hle hstop
    refine ⟨⟨first.holds hlt, first.start_le, hlt⟩, ?_⟩
    rintro j ⟨hj, hjstart, -⟩
    exact not_lt.1 fun hlt => first.before j hjstart hlt hj

theorem lastIn_finds (hb : b.Valid) : b.FindsGreatest start stop (b.lastIn start stop) := by
  obtain ⟨found, missing⟩ := lastIn_spec hb start stop
  constructor
  · intro hempty
    cases hresult : b.lastIn start stop with
    | none => rfl
    | some r =>
      obtain ⟨hstart, hstop, hr, -⟩ := found r hresult
      exact absurd (mem_membersIn.2 ⟨hr, hstart, hstop⟩) (Set.eq_empty_iff_forall_notMem.1 hempty r)
  · rintro ⟨i, hi, hstart, hstop⟩
    cases hresult : b.lastIn start stop with
    | none => exact absurd hi (missing hresult i hstart hstop)
    | some r =>
      obtain ⟨hrstart, hrstop, hr, after⟩ := found r hresult
      refine ⟨r, rfl, ⟨hr, hrstart, hrstop⟩, ?_⟩
      rintro j ⟨hj, -, hjstop⟩
      exact not_lt.1 fun hlt => after j hlt hjstop hj

/-! ## Clearing -/

/-- Clearing a range takes it away from the set. -/
theorem members_clear (hb : b.Valid) (hstop : stop ≤ b.size) :
    (b.clear start stop).members = b.members \ Set.Ico start stop := by
  ext i
  show (b.clear start stop).mem i = true ↔ b.mem i = true ∧ ¬(start ≤ i ∧ i < stop)
  rw [mem_clear hb hstop, ← Bool.decide_and, Bool.and_eq_true, Bool.not_eq_true',
    decide_eq_false_iff_not]

/-! ## The checked operations -/

/-- The operations on a range of bits, seen from the set. -/
structure ActsAsSet (b : Bitset) (start stop : ℕ) : Prop where
  first : ∃ r, b.firstIn? start stop = .ok r ∧ b.FindsLeast start stop r
  last : ∃ found, b.lastIn? start stop = .ok found ∧ b.FindsGreatest start stop found
  clear : ∃ b', b.clear? start stop = .ok b' ∧ b'.Valid ∧ b'.size = b.size
    ∧ b'.members = b.members \ Set.Ico start stop

/-- In every set of bits, and for every range in it, searching and clearing do what their names
say. -/
theorem actsAsSet (hb : b.Valid) (h : start ≤ stop) (hstop : stop ≤ b.size) :
    b.ActsAsSet start stop := by
  have hcheck := checkRange_eq h hstop
  refine ⟨⟨b.firstIn start stop, ?_, firstIn_finds hb h⟩,
    ⟨b.lastIn start stop, ?_, lastIn_finds hb⟩,
    ⟨b.clear start stop, ?_, hb.clear hstop, size_clear b start stop, members_clear hb hstop⟩⟩
  · rw [firstIn?, hcheck]
    rfl
  · rw [lastIn?, hcheck]
    rfl
  · rw [clear?, hcheck]
    rfl

/-- A range that begins inside of the first word of three and ends with the last bit. -/
theorem actsAsSet_threeWords :
    (((empty 130).set 3).set 129).Valid ∧ 5 ≤ 130 ∧ 130 ≤ (((empty 130).set 3).set 129).size
    ∧ (((empty 130).set 3).set 129).ActsAsSet 5 130 :=
  have valid : (((empty 130).set 3).set 129).Valid := ((valid_empty 130).set 3).set 129
  ⟨valid, by decide, by decide, actsAsSet valid (by decide) (by decide)⟩

end MarkCompact.Bitset
