import Mathlib.Data.Nat.Count
import MarkCompact.Bitset

/-!
# Searching and changing sets of bits

The word-wise operations of `Bitset` read through membership: a search gives the first (last) member
of a range, setting adds one member, clearing removes a range.

A search is described by `IsFirst p start stop r`: `r` is the least number of the range that has the
property, or `stop` if none has.  Everything else in the development reasons with that description
and never opens a word.
-/

namespace MarkCompact

/-- `r` is the least number from `start` up to, not including, `stop` that has the property `p`; it
is `stop` if there is none. -/
structure IsFirst (p : ℕ → Prop) (start stop r : ℕ) : Prop where
  start_le : start ≤ r
  le_stop : r ≤ stop
  holds : r < stop → p r
  before : ∀ j, start ≤ j → j < r → ¬p j

namespace IsFirst

variable {p : ℕ → Prop} {start stop r : ℕ}

/-- A member of the range before which there is none is what the search finds. -/
lemma eq_of_holds (h : IsFirst p start stop r) {i : ℕ} (hi : p i) (hstart : start ≤ i)
    (hstop : i < stop) (hbefore : ∀ j, start ≤ j → j < i → ¬p j) : r = i := by
  by_contra hne
  rcases Nat.lt_or_gt_of_ne hne with hlt | hgt
  · exact hbefore r h.start_le hlt (h.holds (by omega))
  · exact h.before i hstart hgt hi

lemma eq_stop (h : IsFirst p start stop r) (hnone : ∀ j, start ≤ j → j < stop → ¬p j) :
    r = stop := by
  by_contra hne
  have hlt : r < stop := lt_of_le_of_ne h.le_stop hne
  exact hnone r h.start_le hlt (h.holds hlt)

/-- A search may begin earlier where there is nothing to find. -/
lemma widen {first : ℕ} (h : IsFirst p start stop r) (hle : first ≤ start)
    (hnone : ∀ j, first ≤ j → j < start → ¬p j) :
    IsFirst p first stop r where
  start_le := hle.trans h.start_le
  le_stop := h.le_stop
  holds := h.holds
  before j h1 h2 := by
    by_cases hj : j < start
    · exact hnone j h1 hj
    · exact h.before j (not_lt.1 hj) h2

/-- A search that ends elsewhere finds the same, unless it ends before that or goes on past the
range. -/
lemma cut {limit : ℕ} (h : IsFirst p start limit r) (hle : start ≤ stop)
    (hlimit : stop ≤ limit ∨ r < limit) :
    IsFirst p start stop (min r stop) where
  start_le := le_min h.start_le hle
  le_stop := Nat.min_le_right r stop
  holds hlt := by
    rw [Nat.min_eq_left (by omega)]
    exact h.holds (by omega)
  before j h1 h2 := h.before j h1 (by omega)

end IsFirst

/-! ## Bits of one word -/

lemma trailingZeros_spec (limit w : ℕ) :
    IsFirst (fun i => w.testBit i) 0 limit (trailingZeros limit w) := by
  induction limit generalizing w with
  | zero =>
    exact ⟨Nat.zero_le _, le_refl _, fun h => absurd h (Nat.lt_irrefl _),
      fun j _ h => absurd h (Nat.not_lt_zero j)⟩
  | succ limit ih =>
    rw [trailingZeros]
    split
    · rename_i hodd
      exact ⟨le_refl _, Nat.zero_le _, fun _ => by simp [hodd],
        fun j _ h => absurd h (Nat.not_lt_zero j)⟩
    · rename_i heven
      have half := ih (w / 2)
      refine ⟨Nat.zero_le _, Nat.succ_le_succ half.le_stop, fun h => ?_, fun j _ hj => ?_⟩
      · rw [Nat.testBit_add_one]
        exact half.holds (by omega)
      · cases j with
        | zero => simpa using heven
        | succ j =>
          rw [Nat.testBit_add_one]
          exact half.before j (Nat.zero_le _) (by omega)

/-- A word below `2 ^ limit` that is not zero has its first bit below `limit`. -/
lemma trailingZeros_lt {limit w : ℕ} (hne : w ≠ 0) (hw : w < 2 ^ limit) :
    trailingZeros limit w < limit := by
  have first := trailingZeros_spec limit w
  obtain ⟨i, hi⟩ := Nat.exists_testBit_of_ne_zero hne
  have hlt : i < limit := by
    by_contra hge
    rw [Nat.testBit_lt_two_pow (lt_of_lt_of_le hw (Nat.pow_le_pow_right (by decide) (by omega)))]
      at hi
    exact absurd hi (by decide)
  by_contra hge
  exact first.before i (Nat.zero_le _) (by have := first.le_stop; omega) hi

lemma testBit_clearBits {w start stop i : ℕ} (h : start ≤ stop) :
    (clearBits w start stop).testBit i
      = (w.testBit i && !(decide (start ≤ i) && decide (i < stop))) := by
  have hlow : w % 2 ^ start < 2 ^ stop :=
    lt_of_lt_of_le (Nat.mod_lt _ (Nat.two_pow_pos _)) (Nat.pow_le_pow_right (by decide) h)
  rw [clearBits, Nat.one_shiftLeft, Nat.shiftLeft_eq, Nat.add_comm, Nat.mul_comm,
    Nat.testBit_two_pow_mul_add _ hlow, Nat.testBit_mod_two_pow, Nat.testBit_shiftRight]
  by_cases h1 : i < start
  · have h2 : i < stop := by omega
    have h3 : ¬start ≤ i := by omega
    simp [h1, h2, h3]
  · by_cases h2 : i < stop
    · have h3 : start ≤ i := by omega
      simp [h1, h2, h3]
    · have h3 : stop + (i - stop) = i := by omega
      simp [h2, h3]

/-- Removing bits does not make a word larger than its bound. -/
lemma clearBits_lt {w start stop n : ℕ} (h : start ≤ stop) (hw : w < 2 ^ n) :
    clearBits w start stop < 2 ^ n := by
  apply Nat.lt_pow_two_of_testBit
  intro i hi
  rw [testBit_clearBits h,
    Nat.testBit_lt_two_pow (lt_of_lt_of_le hw (Nat.pow_le_pow_right (by decide) hi)),
    Bool.false_and]

/-! ## Sets whose words are words -/

namespace Bitset

/-- The words of the set are there, are machine words, and read as zero where nothing is stored. -/
structure Valid (b : Bitset) : Prop where
  size_words : b.words.size = wordCount b.size
  blank_words : b.words.blank = 0
  word_lt : ∀ k, b.words.get k < 2 ^ 64

variable {b : Bitset}

lemma valid_empty (size : ℕ) : (empty size).Valid where
  size_words := rfl
  blank_words := rfl
  word_lt k := by simp [empty]

@[simp] lemma mem_empty (size i : ℕ) : (empty size).mem i = false := by
  simp [mem, empty]

/-- The word of a bit below the size is stored. -/
lemma Valid.word_index_lt (hb : b.Valid) {i : ℕ} (hi : i < b.size) : i / 64 < b.words.size := by
  rw [hb.size_words, wordCount]
  omega

/-! ## Adding a member -/

lemma mem_set (hb : b.Valid) {i : ℕ} (hi : i < b.size) (j : ℕ) :
    (b.set i).mem j = (decide (j = i) || b.mem j) := by
  have hin := hb.word_index_lt hi
  simp only [mem, set, Table.get_modify]
  by_cases hword : i / 64 = j / 64
  · rw [if_pos ⟨hword, hin⟩, Nat.testBit_or, Nat.one_shiftLeft, Nat.testBit_two_pow]
    have hbit : decide (i % 64 = j % 64) = decide (j = i) := by
      rw [decide_eq_decide]
      omega
    rw [hbit, Bool.or_comm]
  · have hne : j ≠ i := by
      rintro rfl
      exact hword rfl
    rw [if_neg (by simp [hword])]
    simp [hne]

lemma Valid.set (hb : b.Valid) (i : ℕ) : (b.set i).Valid where
  size_words := by simpa [Bitset.set] using hb.size_words
  blank_words := by simpa [Bitset.set, Table.modify] using hb.blank_words
  word_lt k := by
    simp only [Bitset.set, Table.get_modify]
    split
    · refine Nat.or_lt_two_pow (hb.word_lt k) ?_
      rw [Nat.one_shiftLeft]
      exact Nat.pow_lt_pow_right (by decide) (Nat.mod_lt _ (by decide))
    · exact hb.word_lt k

/-! ## Removing a range -/

@[simp] lemma size_clear (b : Bitset) (start stop : ℕ) : (b.clear start stop).size = b.size := by
  unfold clear
  split
  · rfl
  · dsimp only
    split <;> rfl

/-- Clearing a range one word at a time leaves in each word what the range does not reach. -/
lemma get_clear (hb : b.Valid) {start stop : ℕ} (h : start < stop) (hstop : stop ≤ b.size) (k : ℕ) :
    (b.clear start stop).words.get k
      = if k = start / 64 ∧ k = (stop - 1) / 64 then
          clearBits (b.words.get k) (start % 64) ((stop - 1) % 64 + 1)
        else if k = start / 64 then clearBits (b.words.get k) (start % 64) 64
        else if k = (stop - 1) / 64 then clearBits (b.words.get k) 0 ((stop - 1) % 64 + 1)
        else if start / 64 < k ∧ k < (stop - 1) / 64 then 0
        else b.words.get k := by
  have hfirst := hb.word_index_lt (i := start) (by omega)
  have hlast := hb.word_index_lt (i := stop - 1) (by omega)
  have hle : start / 64 ≤ (stop - 1) / 64 := Nat.div_le_div_right (by omega)
  unfold clear
  rw [if_neg (by omega)]
  by_cases hsame : start / 64 = (stop - 1) / 64
  · simp only [hsame, if_true, Table.get_modify]
    by_cases hk : k = (stop - 1) / 64
    · subst hk
      simp [hlast]
    · have hk' : ¬((stop - 1) / 64 = k ∧ (stop - 1) / 64 < b.words.size) := fun hc => hk hc.1.symm
      rw [if_neg hk', if_neg (by omega), if_neg hk, if_neg hk, if_neg (by omega)]
  · simp only [hsame, if_false, Table.get_modify, Table.size_modify, Table.size_clear,
      Table.get_clear]
    by_cases hk1 : k = start / 64
    · have h1 : ¬((stop - 1) / 64 = k ∧ (stop - 1) / 64 < b.words.size) := by omega
      have h2 : start / 64 = k ∧ start / 64 < b.words.size := by omega
      have h3 : ¬(start / 64 + 1 ≤ k ∧ k < (stop - 1) / 64) := by omega
      rw [if_neg h1, if_pos h2, if_neg h3, if_neg (by omega), if_pos hk1]
    · have h2 : ¬(start / 64 = k ∧ start / 64 < b.words.size) := by omega
      by_cases hk2 : k = (stop - 1) / 64
      · have h1 : (stop - 1) / 64 = k ∧ (stop - 1) / 64 < b.words.size := by omega
        have h3 : ¬(start / 64 + 1 ≤ k ∧ k < (stop - 1) / 64) := by omega
        rw [if_pos h1, if_neg h2, if_neg h3, if_neg (by omega), if_neg hk1, if_pos hk2]
      · have h1 : ¬((stop - 1) / 64 = k ∧ (stop - 1) / 64 < b.words.size) := by omega
        rw [if_neg h1, if_neg h2]
        by_cases hk3 : start / 64 < k ∧ k < (stop - 1) / 64
        · rw [if_pos (by omega), if_neg (by omega), if_neg hk1, if_neg hk2, if_pos hk3,
            hb.blank_words]
        · rw [if_neg (by omega), if_neg (by omega), if_neg hk1, if_neg hk2, if_neg hk3]

/-- Clearing a range removes its members and no others. -/
theorem mem_clear (hb : b.Valid) {start stop : ℕ} (hstop : stop ≤ b.size) (i : ℕ) :
    (b.clear start stop).mem i = (b.mem i && !(decide (start ≤ i) && decide (i < stop))) := by
  by_cases h : start < stop
  · have hbit : i % 64 < 64 := Nat.mod_lt _ (by decide)
    have hzero : Nat.testBit 0 (i % 64) = false := Nat.zero_testBit _
    simp only [mem, get_clear hb h hstop]
    split
    · rename_i hk
      rw [testBit_clearBits (by omega)]
      congr 3
      · rw [decide_eq_decide]; omega
      · rw [decide_eq_decide]; omega
    · split
      · rename_i hk
        rw [testBit_clearBits (by omega)]
        congr 3
        · rw [decide_eq_decide]; omega
        · rw [decide_eq_decide]; omega
      · split
        · rename_i hk
          rw [testBit_clearBits (by omega)]
          congr 3
          · rw [decide_eq_decide]; omega
          · rw [decide_eq_decide]; omega
        · split
          · rename_i hk
            have h1 : start ≤ i := by omega
            have h2 : i < stop := by omega
            simp [h1, h2]
          · have hout : ¬(start ≤ i ∧ i < stop) := by omega
            rw [← Bool.decide_and, decide_eq_false hout]
            simp
  · have hout : ¬(start ≤ i ∧ i < stop) := by omega
    unfold clear
    rw [if_pos (by omega), ← Bool.decide_and, decide_eq_false hout]
    simp

lemma Valid.clear (hb : b.Valid) {start stop : ℕ} (hstop : stop ≤ b.size) :
    (b.clear start stop).Valid where
  size_words := by
    rw [size_clear, ← hb.size_words]
    unfold Bitset.clear
    split
    · rfl
    · dsimp only
      split <;> simp
  blank_words := by
    rw [← hb.blank_words]
    unfold Bitset.clear
    split
    · rfl
    · dsimp only
      split <;> simp [Table.modify, Table.clear]
  word_lt k := by
    by_cases h : start < stop
    · have hbit : start % 64 < 64 := Nat.mod_lt _ (by decide)
      rw [get_clear hb h hstop]
      split
      · exact clearBits_lt (by omega) (hb.word_lt k)
      · split
        · exact clearBits_lt (by omega) (hb.word_lt k)
        · split
          · exact clearBits_lt (by omega) (hb.word_lt k)
          · split
            · exact Nat.two_pow_pos 64
            · exact hb.word_lt k
    · unfold Bitset.clear
      rw [if_pos (by omega)]
      exact hb.word_lt k

/-! ## Searching upwards -/

/-- What a search through whole words finds, as a search through bits. -/
lemma firstFromWord_spec (hb : b.Valid) (count index : ℕ) :
    IsFirst (fun i => b.mem i) (64 * index) (64 * (index + count))
      ((b.firstFromWord count index).getD (64 * (index + count))) := by
  induction count generalizing index with
  | zero =>
    exact ⟨by simp [firstFromWord], by simp [firstFromWord],
      fun h => absurd h (by simp [firstFromWord]), fun j h1 h2 =>
        by simp [firstFromWord] at h2; omega⟩
  | succ count ih =>
    rw [firstFromWord]
    by_cases hw : b.words.get index = 0
    · have rest := ih (index + 1)
      have hlen : index + 1 + count = index + (count + 1) := by omega
      rw [hlen] at rest
      rw [if_pos hw]
      refine rest.widen (by omega) fun j h1 h2 => ?_
      have hword : j / 64 = index := by omega
      simp [mem, hword, hw]
    · have first := trailingZeros_spec 64 (b.words.get index)
      have hlt := trailingZeros_lt hw (hb.word_lt index)
      have hword : ∀ k, k < 64 → (64 * index + k) / 64 = index ∧ (64 * index + k) % 64 = k := by
        intro k hk
        omega
      rw [if_neg hw, Option.getD_some]
      refine ⟨by omega, by omega, fun _ => ?_, fun j h1 h2 => ?_⟩
      · simp only [mem, (hword _ hlt).1, (hword _ hlt).2]
        exact first.holds hlt
      · have hbit := first.before (j - 64 * index) (Nat.zero_le _) (by omega)
        have hj : j / 64 = index ∧ j % 64 = j - 64 * index := by omega
        simpa only [mem, hj.1, hj.2] using hbit

/-- The rest of a word from bit `start` on, as the members of the set from `start` on. -/
lemma testBit_shiftRight_word (start : ℕ) {k : ℕ} (hk : start % 64 + k < 64) :
    (b.words.get (start / 64) >>> (start % 64)).testBit k = b.mem (start + k) := by
  have h1 : (start + k) / 64 = start / 64 := by omega
  have h2 : (start + k) % 64 = start % 64 + k := by omega
  rw [Nat.testBit_shiftRight, mem, h1, h2]

/-- Where the rest of a word is zero there is no member. -/
lemma not_mem_of_shiftRight_eq_zero {start j : ℕ}
    (hw : b.words.get (start / 64) >>> (start % 64) = 0) (h1 : start ≤ j)
    (h2 : j < 64 * (start / 64 + 1)) : ¬b.mem j := by
  have hj := testBit_shiftRight_word (b := b) start (k := j - start) (by omega)
  rw [hw, Nat.zero_testBit, Nat.add_sub_cancel' h1] at hj
  simp [← hj]

/-- Where it is not, its first bit is the first member from `start` on. -/
lemma firstInWord_spec (hb : b.Valid) {start : ℕ}
    (hw : b.words.get (start / 64) >>> (start % 64) ≠ 0) :
    start + trailingZeros 64 (b.words.get (start / 64) >>> (start % 64)) < 64 * (start / 64 + 1)
      ∧ IsFirst (fun i => b.mem i) start (64 * (start / 64 + 1))
        (start + trailingZeros 64 (b.words.get (start / 64) >>> (start % 64))) := by
  have first := trailingZeros_spec 64 (b.words.get (start / 64) >>> (start % 64))
  have hbound : b.words.get (start / 64) >>> (start % 64) < 2 ^ (64 - start % 64) := by
    rw [Nat.shiftRight_eq_div_pow, Nat.div_lt_iff_lt_mul (Nat.two_pow_pos _), ← Nat.pow_add,
      show 64 - start % 64 + start % 64 = 64 by omega]
    exact hb.word_lt _
  obtain ⟨i, hi⟩ := Nat.exists_testBit_of_ne_zero hw
  have hi64 : i < 64 - start % 64 := by
    by_contra hge
    rw [Nat.testBit_lt_two_pow
      (lt_of_lt_of_le hbound (Nat.pow_le_pow_right (by decide) (by omega)))] at hi
    exact absurd hi (by decide)
  have hlt : trailingZeros 64 (b.words.get (start / 64) >>> (start % 64)) < 64 - start % 64 := by
    by_contra hge
    exact first.before i (Nat.zero_le _) (by omega) hi
  refine ⟨by omega, by omega, by omega, fun _ => ?_, fun j h1 h2 => ?_⟩
  · rw [← testBit_shiftRight_word start (by omega)]
    exact first.holds (by omega)
  · have hj := first.before (j - start) (Nat.zero_le _) (by omega)
    rwa [testBit_shiftRight_word start (by omega), Nat.add_sub_cancel' h1] at hj

/-- The search finds the first member of the range. -/
theorem firstIn_spec (hb : b.Valid) {start stop : ℕ} (h : start ≤ stop) :
    IsFirst (fun i => b.mem i) start stop (b.firstIn start stop) := by
  rcases Nat.eq_or_lt_of_le h with rfl | hlt
  · rw [firstIn, if_pos (le_refl _)]
    exact ⟨le_refl _, le_refl _, fun h => absurd h (Nat.lt_irrefl _), fun j h1 h2 => by omega⟩
  rw [firstIn, if_neg (by omega)]
  dsimp only
  by_cases hw : b.words.get (start / 64) >>> (start % 64) = 0
  · rw [if_pos hw]
    have rest := firstFromWord_spec hb ((stop + 63) / 64 - (start / 64 + 1)) (start / 64 + 1)
    have hend : stop ≤ 64 * (start / 64 + 1 + ((stop + 63) / 64 - (start / 64 + 1))) := by omega
    have found :=
      (rest.widen (by omega) fun j => not_mem_of_shiftRight_eq_zero hw).cut h (Or.inl hend)
    cases hfound : b.firstFromWord ((stop + 63) / 64 - (start / 64 + 1)) (start / 64 + 1) with
    | none =>
      rw [hfound, Option.getD_none, Nat.min_eq_right hend] at found
      exact found
    | some i =>
      rw [hfound, Option.getD_some] at found
      exact found
  · rw [if_neg hw]
    obtain ⟨hbefore, found⟩ := firstInWord_spec hb hw
    exact found.cut h (Or.inr hbefore)

/-! ## Searching downwards -/

/-- The highest bit of a word is set and no bit above it is. -/
lemma testBit_of_log2_lt {w i : ℕ} (h : w.log2 < i) : w.testBit i = false :=
  Nat.testBit_lt_two_pow (lt_of_lt_of_le Nat.lt_log2_self (Nat.pow_le_pow_right (by decide) h))

/-- What a downward search through whole words finds: a member above which the words are zero. -/
lemma lastBeforeWord_spec (hb : b.Valid) (count index : ℕ) (h : count ≤ index) :
    (∀ i, b.lastBeforeWord count index = some i →
      64 * (index - count) ≤ i ∧ i < 64 * index ∧ b.mem i ∧ ∀ j, i < j →
      j < 64 * index → ¬b.mem j) ∧
    (b.lastBeforeWord count index = none → ∀ j, 64 * (index - count) ≤ j → j < 64 * index →
      ¬b.mem j) := by
  induction count generalizing index with
  | zero => exact ⟨fun i hi => by simp [lastBeforeWord] at hi, fun _ j h1 h2 => by omega⟩
  | succ count ih =>
    rw [lastBeforeWord]
    by_cases hw : b.words.get (index - 1) = 0
    · obtain ⟨found, none⟩ := ih (index - 1) (by omega)
      have hnone : ∀ j, 64 * (index - 1) ≤ j → j < 64 * index → ¬b.mem j := by
        intro j h1 h2
        have hword : j / 64 = index - 1 := by omega
        simp [mem, hword, hw]
      simp only [hw, if_true]
      refine ⟨fun i hi => ?_, fun hn j h1 h2 => ?_⟩
      · obtain ⟨h1, h2, h3, h4⟩ := found i hi
        refine ⟨by omega, by omega, h3, fun j hj1 hj2 => ?_⟩
        by_cases hj : j < 64 * (index - 1)
        · exact h4 j hj1 hj
        · exact hnone j (by omega) hj2
      · by_cases hj : j < 64 * (index - 1)
        · exact none hn j (by omega) hj
        · exact hnone j (by omega) h2
    · have hlt : (b.words.get (index - 1)).log2 < 64 := (Nat.log2_lt hw).2 (hb.word_lt _)
      simp only [hw, if_false, Option.some.injEq, reduceCtorEq, false_implies, and_true]
      rintro i rfl
      refine ⟨by omega, by omega, ?_, fun j hj1 hj2 => ?_⟩
      · have hword : (64 * (index - 1) + (b.words.get (index - 1)).log2) / 64 = index - 1 := by
          omega
        have hbit : (64 * (index - 1) + (b.words.get (index - 1)).log2) % 64
            = (b.words.get (index - 1)).log2 := by
          omega
        rw [mem, hword, hbit]
        exact Nat.testBit_log2 hw
      · have hword : j / 64 = index - 1 := by omega
        rw [mem, hword, testBit_of_log2_lt (by omega)]
        exact Bool.false_ne_true

/-- A word up to and with bit `last`, as the members of the set up to `last`. -/
lemma testBit_mod_word (last : ℕ) {j : ℕ} (hword : j / 64 = last / 64) (hle : j ≤ last) :
    (b.words.get (last / 64) % 1 <<< (last % 64 + 1)).testBit (j % 64) = b.mem j := by
  have hlt : j % 64 < last % 64 + 1 := by omega
  rw [Nat.one_shiftLeft, Nat.testBit_mod_two_pow, mem, hword, decide_eq_true hlt, Bool.true_and]

/-- The highest bit of that part of a word, if it is not zero, is the last member up to `last`. -/
lemma lastInWord_spec {last : ℕ} (hw : b.words.get (last / 64) % 1 <<< (last % 64 + 1) ≠ 0) :
    64 * (last / 64) + (b.words.get (last / 64) % 1 <<< (last % 64 + 1)).log2 ≤ last
      ∧ b.mem (64 * (last / 64) + (b.words.get (last / 64) % 1 <<< (last % 64 + 1)).log2)
      ∧ ∀ j, 64 * (last / 64) + (b.words.get (last / 64) % 1 <<< (last % 64 + 1)).log2 < j →
        j ≤ last → ¬b.mem j := by
  have htop := Nat.testBit_log2 hw
  have hmem := fun j => testBit_mod_word (b := b) last (j := j)
  have hlt : (b.words.get (last / 64) % 1 <<< (last % 64 + 1)).log2 < last % 64 + 1 := by
    rw [Nat.one_shiftLeft] at hw ⊢
    exact (Nat.log2_lt hw).2 (Nat.mod_lt _ (Nat.two_pow_pos _))
  generalize b.words.get (last / 64) % 1 <<< (last % 64 + 1) = w at htop hlt hmem ⊢
  have hlow : (64 * (last / 64) + w.log2) % 64 = w.log2 := by omega
  refine ⟨by omega, ?_, fun j h1 h2 => ?_⟩
  · rw [← hmem _ (by omega) (by omega), hlow]
    exact htop
  · rw [← hmem j (by omega) h2, testBit_of_log2_lt (by omega)]
    exact Bool.false_ne_true

/-- The downward search finds the last member of the range. -/
theorem lastIn_spec (hb : b.Valid) (start stop : ℕ) :
    (∀ i, b.lastIn start stop = some i →
      start ≤ i ∧ i < stop ∧ b.mem i ∧ ∀ j, i < j → j < stop → ¬b.mem j) ∧
    (b.lastIn start stop = none → ∀ j, start ≤ j → j < stop → ¬b.mem j) := by
  rw [lastIn]
  by_cases h : stop ≤ start
  · simp only [h, if_true, reduceCtorEq, false_implies, implies_true, true_and]
    intro _ j h1 h2
    omega
  simp only [h, if_false]
  by_cases hw : b.words.get ((stop - 1) / 64) % 1 <<< ((stop - 1) % 64 + 1) = 0
  · have hnone : ∀ j, 64 * ((stop - 1) / 64) ≤ j → j < stop → ¬b.mem j := by
      intro j h1 h2
      rw [← testBit_mod_word (stop - 1) (by omega) (by omega), hw]
      simp
    obtain ⟨found, none⟩ :=
      lastBeforeWord_spec hb ((stop - 1) / 64 - start / 64) ((stop - 1) / 64) (by omega)
    simp only [hw, if_true]
    constructor
    · intro i hi
      rw [Option.filter_eq_some_iff] at hi
      obtain ⟨h1, h2, h3, h4⟩ := found i hi.1
      refine ⟨by simpa using hi.2, by omega, h3, fun j hj1 hj2 => ?_⟩
      by_cases hj : j < 64 * ((stop - 1) / 64)
      · exact h4 j hj1 hj
      · exact hnone j (not_lt.1 hj) hj2
    · intro hn j h1 h2
      by_cases hj : j < 64 * ((stop - 1) / 64)
      · rw [Option.filter_eq_none_iff] at hn
        cases hfound : b.lastBeforeWord ((stop - 1) / 64 - start / 64) ((stop - 1) / 64) with
        | none => exact none hfound j (by omega) hj
        | some i =>
          have hlt : ¬start ≤ i := by simpa using hn i hfound
          exact (found i hfound).2.2.2 j (by omega) hj
      · exact hnone j (not_lt.1 hj) h2
  · obtain ⟨hle, hmem, habove⟩ := lastInWord_spec hw
    simp only [hw, if_false]
    constructor
    · intro i hi
      rw [Option.filter_eq_some_iff] at hi
      obtain ⟨hi1, hi2⟩ := hi
      cases Option.some.inj hi1
      exact ⟨by simpa using hi2, by omega, hmem, fun j h1 h2 => habove j h1 (by omega)⟩
    · intro hn j h1 h2
      have hlt := (Option.filter_eq_none_iff.1 hn) _ rfl
      have hlt' : ¬start ≤ 64 * ((stop - 1) / 64)
          + (b.words.get ((stop - 1) / 64) % 1 <<< ((stop - 1) % 64 + 1)).log2 := by simpa using hlt
      exact habove j (by omega) (by omega)

/-! ## Checked ranges -/

lemma checkRange_eq {start stop : ℕ} (h : start ≤ stop) (hstop : stop ≤ b.size) :
    b.checkRange start stop = .ok () := by
  rw [checkRange, if_neg (by omega), if_neg (by omega)]
  rfl

end Bitset

end MarkCompact
