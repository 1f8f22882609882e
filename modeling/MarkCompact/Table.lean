/-!
# Sparse tables

A `Table` holds one value per index below its size.  Side tables of a collector cover address
ranges of which most is never touched, so a table is a binary tree over the bits of the index in
which a subtree of equal values is a single leaf: a fresh table of any size is one leaf, and
clearing a range gives leaves back.

Main statements: `Table.get_set` and `Table.get_clear` say what a table holds after a write and
after clearing a range, `Table.get_fresh` that a fresh table holds its blank value everywhere.
-/

namespace MarkCompact

/-! ## Trees over the bits of an index -/

/-- A tree over index bits, highest first; a leaf stands for equal values at every index below. -/
inductive BitTree (α : Type) where
  | leaf (value : α)
  | fork (low high : BitTree α)

namespace BitTree

variable {α : Type}

/-- The value at index `i` of a tree over `depth` bits. -/
def get : BitTree α → (depth i : Nat) → α
  | leaf a, _, _ => a
  | fork low _, 0, i => low.get 0 i
  | fork low high, depth + 1, i => if i.testBit depth then high.get depth i else low.get depth i

/-- The subtree of the lower half of the indices. -/
def low : BitTree α → BitTree α
  | leaf a => leaf a
  | fork l _ => l

/-- The subtree of the upper half of the indices. -/
def high : BitTree α → BitTree α
  | leaf a => leaf a
  | fork _ h => h

/-- Writes `a` at index `i`. -/
def set (a : α) (i : Nat) : (depth : Nat) → BitTree α → BitTree α
  | 0, _ => leaf a
  | depth + 1, leaf b =>
    if i.testBit depth then fork (leaf b) (set a i depth (leaf b))
    else fork (set a i depth (leaf b)) (leaf b)
  | depth + 1, fork l h =>
    if i.testBit depth then fork l (set a i depth h) else fork (set a i depth l) h

/-- Writes `a` at every index from `start` up to, not including, `stop`; both count from the first
index of the tree. -/
def fill (a : α) : (depth start stop : Nat) → BitTree α → BitTree α
  | 0, start, stop, t => if start = 0 ∧ 0 < stop then leaf a else t
  | depth + 1, start, stop, t =>
    if stop ≤ start then t
    else if start = 0 ∧ 1 <<< (depth + 1) ≤ stop then leaf a
    else
      fork (fill a depth start (min stop (1 <<< depth)) t.low)
        (fill a depth (start - 1 <<< depth) (stop - 1 <<< depth) t.high)

theorem get_low_high (t : BitTree α) (depth i : Nat) :
    t.get (depth + 1) i = if i.testBit depth then t.high.get depth i else t.low.get depth i := by
  cases t <;> simp [get, low, high]

theorem set_succ (a : α) (i depth : Nat) (t : BitTree α) :
    set a i (depth + 1) t
      = if i.testBit depth then fork t.low (set a i depth t.high)
        else fork (set a i depth t.low) t.high := by
  cases t <;> rfl

/-- A tree reads only the bits below its depth. -/
theorem get_congr (t : BitTree α) (depth i j : Nat)
    (h : ∀ k, k < depth → i.testBit k = j.testBit k) : t.get depth i = t.get depth j := by
  induction depth generalizing t with
  | zero =>
    induction t with
    | leaf a => rfl
    | fork l _ ih => simpa [get] using ih
  | succ d ih =>
    rw [get_low_high, get_low_high, h d (Nat.lt_succ_self d)]
    rw [ih t.high fun k hk => h k (Nat.lt_succ_of_lt hk),
      ih t.low fun k hk => h k (Nat.lt_succ_of_lt hk)]

theorem get_set_of_eq (a : α) (i j depth : Nat) (t : BitTree α)
    (h : ∀ k, k < depth → i.testBit k = j.testBit k) : (set a i depth t).get depth j = a := by
  induction depth generalizing t with
  | zero => rfl
  | succ d ih =>
    have hd := h d (Nat.lt_succ_self d)
    have ih' := fun t => ih t fun k hk => h k (Nat.lt_succ_of_lt hk)
    rw [set_succ]
    by_cases hi : i.testBit d
    · simp [hi, get, ← hd, ih']
    · simp [hi, get, ← hd, ih']

theorem get_set_of_ne (a : α) (i j depth : Nat) (t : BitTree α)
    (h : ∃ k, k < depth ∧ i.testBit k ≠ j.testBit k) :
    (set a i depth t).get depth j = t.get depth j := by
  induction depth generalizing t with
  | zero => obtain ⟨k, hk, _⟩ := h; exact absurd hk (Nat.not_lt_zero k)
  | succ d ih =>
    rw [set_succ, get_low_high t]
    by_cases hd : i.testBit d = j.testBit d
    · have h' : ∃ k, k < d ∧ i.testBit k ≠ j.testBit k := by
        obtain ⟨k, hk, hne⟩ := h
        refine ⟨k, ?_, hne⟩
        rcases Nat.lt_succ_iff_lt_or_eq.mp hk with hk | rfl
        · exact hk
        · exact absurd hd hne
      by_cases hi : i.testBit d
      · simp [hi, get, ← hd, ih _ h']
      · simp [hi, get, ← hd, ih _ h']
    · by_cases hi : i.testBit d
      · have hj : j.testBit d = false := by simpa [hi] using hd
        simp [hi, get, hj]
      · have hj : j.testBit d = true := by simpa [hi] using hd
        simp [hi, get, hj]

theorem get_set (a : α) {i j depth : Nat} (t : BitTree α) (hi : i < 1 <<< depth)
    (hj : j < 1 <<< depth) :
    (set a i depth t).get depth j = if i = j then a else t.get depth j := by
  rw [Nat.one_shiftLeft] at hi hj
  by_cases h : ∀ k, k < depth → i.testBit k = j.testBit k
  · have hij : i = j := by
      apply Nat.eq_of_testBit_eq
      intro k
      by_cases hk : k < depth
      · exact h k hk
      · have hle : 2 ^ depth ≤ 2 ^ k := Nat.pow_le_pow_right (by decide) (by omega)
        rw [Nat.testBit_lt_two_pow (Nat.lt_of_lt_of_le hi hle),
          Nat.testBit_lt_two_pow (Nat.lt_of_lt_of_le hj hle)]
    simp [hij, get_set_of_eq a j j depth t fun _ _ => rfl]
  · have h' : ∃ k, k < depth ∧ i.testBit k ≠ j.testBit k := by
      simpa only [Classical.not_forall, exists_prop] using h
    have hne : i ≠ j := by
      rintro rfl
      obtain ⟨k, _, hk⟩ := h'
      exact hk rfl
    simp [hne, get_set_of_ne a i j depth t h']

theorem get_fill (a : α) {depth i : Nat} (start stop : Nat) (t : BitTree α) (hi : i < 1 <<< depth) :
    (fill a depth start stop t).get depth i
      = if start ≤ i ∧ i < stop then a else t.get depth i := by
  rw [Nat.one_shiftLeft] at hi
  induction depth generalizing i start stop t with
  | zero =>
    have hi0 : i = 0 := by simpa using hi
    subst hi0
    unfold fill
    by_cases h : start = 0 ∧ 0 < stop
    · simp [h, get]
    · simp [h]
  | succ d ih =>
    unfold fill
    simp only [Nat.one_shiftLeft]
    by_cases h1 : stop ≤ start
    · have : ¬(start ≤ i ∧ i < stop) := by omega
      simp [h1, this]
    by_cases h2 : start = 0 ∧ 2 ^ (d + 1) ≤ stop
    · have hin : start ≤ i ∧ i < stop := by omega
      rw [if_neg h1, if_pos h2, if_pos hin]
      rfl
    rw [if_neg h1, if_neg h2, get_low_high t]
    have hp : (2 : Nat) ^ (d + 1) = 2 ^ d + 2 ^ d := by omega
    by_cases hb : i < 2 ^ d
    · have hbit : i.testBit d = false := Nat.testBit_lt_two_pow hb
      simp only [get, hbit, Bool.false_eq_true, if_false]
      rw [ih start (min stop (2 ^ d)) t.low hb]
      have hiff : (start ≤ i ∧ i < min stop (2 ^ d)) ↔ (start ≤ i ∧ i < stop) := by omega
      simp only [hiff]
    · have hlow : i - 2 ^ d < 2 ^ d := by omega
      have hbit : i.testBit d = true := by
        have : i = 2 ^ d + (i - 2 ^ d) := by omega
        rw [this, Nat.testBit_two_pow_add_eq, Nat.testBit_lt_two_pow hlow]
        rfl
      have hsame : ∀ s : BitTree α, s.get d i = s.get d (i - 2 ^ d) := by
        intro s
        apply get_congr
        intro k hk
        have : i = 2 ^ d + (i - 2 ^ d) := by omega
        rw [this, Nat.testBit_two_pow_add_gt hk]
        congr 1
        omega
      simp only [get, hbit, if_true]
      rw [hsame, ih (start - 2 ^ d) (stop - 2 ^ d) t.high hlow, hsame t.high]
      have hiff : (start - 2 ^ d ≤ i - 2 ^ d ∧ i - 2 ^ d < stop - 2 ^ d)
          ↔ (start ≤ i ∧ i < stop) := by omega
      simp only [hiff]

end BitTree

/-! ## Tables -/

/-- One value per index below `size`, and `blank` at every other index. -/
structure Table (α : Type) where
  size : Nat
  blank : α
  depth : Nat
  root : BitTree α
  size_le : size ≤ 1 <<< depth

namespace Table

variable {α : Type}

/-- The table of `size` entries that holds `blank` everywhere. -/
def fresh (size : Nat) (blank : α) : Table α where
  size := size
  blank := blank
  depth := size.log2 + 1
  root := .leaf blank
  size_le := by
    rw [Nat.one_shiftLeft]
    exact Nat.le_of_lt Nat.lt_log2_self

instance [Inhabited α] : Inhabited (Table α) := ⟨fresh 0 default⟩

/-- The value at index `i`. -/
def get (t : Table α) (i : Nat) : α :=
  if i < t.size then t.root.get t.depth i else t.blank

/-- Writes `a` at index `i`; an index past the end has no entry to write. -/
def set (t : Table α) (i : Nat) (a : α) : Table α :=
  if i < t.size then { t with root := t.root.set a i t.depth } else t

/-- Changes the entry at index `i`. -/
def modify (t : Table α) (i : Nat) (f : α → α) : Table α :=
  t.set i (f (t.get i))

/-- Makes the entries from `start` up to, not including, `stop` blank. -/
def clear (t : Table α) (start stop : Nat) : Table α :=
  { t with root := t.root.fill t.blank t.depth start stop }

/-- The entries from `start` up to, not including, `stop`. -/
def slice (t : Table α) (start stop : Nat) : List α :=
  (List.range' start (stop - start)).map t.get

@[simp] theorem size_fresh (n : Nat) (a : α) : (fresh n a).size = n := rfl

@[simp] theorem size_set (t : Table α) (i : Nat) (a : α) : (t.set i a).size = t.size := by
  unfold set; split <;> rfl

@[simp] theorem blank_set (t : Table α) (i : Nat) (a : α) : (t.set i a).blank = t.blank := by
  unfold set; split <;> rfl

@[simp] theorem size_modify (t : Table α) (i : Nat) (f : α → α) :
    (t.modify i f).size = t.size := size_set ..

@[simp] theorem size_clear (t : Table α) (start stop : Nat) :
    (t.clear start stop).size = t.size := rfl

/-- A fresh table is blank everywhere. -/
@[simp] theorem get_fresh (n i : Nat) (a : α) : (fresh n a).get i = a := by
  unfold get fresh; split <;> rfl

/-- A write changes the entry it names and no other. -/
theorem get_set (t : Table α) (i j : Nat) (a : α) :
    (t.set i a).get j = if i = j ∧ i < t.size then a else t.get j := by
  unfold set
  by_cases hi : i < t.size
  · simp only [hi, if_true, and_true, get]
    by_cases hj : j < t.size
    · simp [hj, BitTree.get_set a t.root (Nat.lt_of_lt_of_le hi t.size_le)
        (Nat.lt_of_lt_of_le hj t.size_le)]
    · have : i ≠ j := by omega
      simp [hj, this]
  · simp [hi]

theorem get_set_self (t : Table α) {i : Nat} (a : α) (h : i < t.size) : (t.set i a).get i = a := by
  simp [get_set, h]

theorem get_set_of_ne (t : Table α) {i j : Nat} (a : α) (h : i ≠ j) :
    (t.set i a).get j = t.get j := by
  simp [get_set, h]

theorem get_modify (t : Table α) (i j : Nat) (f : α → α) :
    (t.modify i f).get j = if i = j ∧ i < t.size then f (t.get j) else t.get j := by
  unfold modify
  rw [get_set]
  by_cases h : i = j <;> simp [h]

/-- Clearing a range makes it blank and keeps the rest. -/
theorem get_clear (t : Table α) (start stop i : Nat) :
    (t.clear start stop).get i = if start ≤ i ∧ i < stop then t.blank else t.get i := by
  unfold clear get
  by_cases hi : i < t.size
  · simp [hi, BitTree.get_fill t.blank start stop t.root (Nat.lt_of_lt_of_le hi t.size_le)]
  · simp [hi]

end Table

end MarkCompact
