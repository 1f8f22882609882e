import MarkCompact.Proofs.Marks
import MarkCompact.Sample.Memory

/-!
# Words of an image

An image that backs a covered range holds a machine word for every word of the range.  References
fill a word or half of one: a `Place` is such a part of the range, by number, and what is written to
one place is read there and nowhere else.

Main statements: `word_write` (what a write does), `word_copyWords` (what copying does),
`Place.get_put_of_not_meets` (places that share nothing keep what they hold).
-/

namespace MarkCompact

variable {e : Extent} {i j n d s v x : ℕ}

/-- A word of a covered range, or half of one. -/
inductive Place where
  | word (i : ℕ)
  | half (j : ℕ)
  deriving DecidableEq

namespace Place

variable {a b : Place}

/-- The word that the place lies in. -/
def index : Place → ℕ
  | word i => i
  | half j => j / 2

/-- The places share a half word. -/
def Meets : Place → Place → Prop
  | half j, half k => j = k
  | a, b => a.index = b.index

/-- What the place holds while its word holds `v`. -/
def get : Place → (v : ℕ) → ℕ
  | word _, v => v
  | half j, v => if j % 2 = 1 then v / narrowValues else v % narrowValues

/-- The word `v` after `x` has been written to the place. -/
def put : Place → (v x : ℕ) → ℕ
  | word _, _, x => x
  | half j, v, x =>
    if j % 2 = 1 then x * narrowValues + v % narrowValues else v / narrowValues * narrowValues + x

/-- One more than the largest number that fits the place. -/
def values : Place → ℕ
  | word _ => wordValues
  | half _ => narrowValues

/-- The name of the place in memory. -/
def slot (e : Extent) : Place → MemorySlot
  | word i => .wide (e.addr i)
  | half j => .narrow (e.start + 4 * j)

/-- What is written to the place to make it hold `x`. -/
def cell (c : Codec) : Place → (x : ℕ) → Cell
  | word _, x => .wide x
  | half _, x => .narrow c x

lemma Meets.symm (h : a.Meets b) : b.Meets a := by
  cases a <;> cases b <;> exact Eq.symm h

lemma get_put (hx : x < a.values) : a.get (a.put v x) = x := by
  cases a with
  | word i => rfl
  | half j =>
    simp only [values, narrowValues] at hx
    by_cases hj : j % 2 = 1
    · simp only [get, put, if_pos hj, narrowValues]
      omega
    · simp only [get, put, if_neg hj, narrowValues]
      omega

/-- A place keeps what it holds when another one in its word is written. -/
lemma get_put_of_not_meets (h : ¬a.Meets b) (heq : a.index = b.index) (hx : x < a.values) :
    b.get (a.put v x) = b.get v := by
  cases a with
  | word i => exact absurd heq h
  | half j =>
    cases b with
    | word k => exact absurd heq h
    | half k =>
      simp only [values, narrowValues] at hx
      simp only [index] at heq
      have hne : j ≠ k := h
      by_cases hj : j % 2 = 1
      · simp only [get, put, if_pos hj, if_neg (show ¬k % 2 = 1 by omega), narrowValues]
        omega
      · simp only [get, put, if_neg hj, if_pos (show k % 2 = 1 by omega), narrowValues]
        omega

lemma put_lt (hv : v < wordValues) (hx : x < a.values) : a.put v x < wordValues := by
  cases a with
  | word i => exact hx
  | half j =>
    simp only [values, narrowValues] at hx
    simp only [put, narrowValues, wordValues] at hv ⊢
    split
    · omega
    · omega

lemma get_lt (hv : v < wordValues) : a.get v < a.values := by
  cases a with
  | word i => exact hv
  | half j =>
    simp only [get, values, narrowValues, wordValues] at hv ⊢
    split
    · omega
    · omega

end Place

namespace MemoryImage

variable {image image' : MemoryImage} {a b : Place}

/-- Word number `i` of the range. -/
def word (image : MemoryImage) (e : Extent) (i : ℕ) : ℕ :=
  image.wordAt (e.addr i)

/-- What a place holds. -/
def value (image : MemoryImage) (e : Extent) (a : Place) : ℕ :=
  a.get (image.word e a.index)

/-- The image holds the words of the range; narrow references count them from the word in front of
the first. -/
structure Backs (image : MemoryImage) (e : Extent) : Prop where
  start_eq : image.start = e.start
  room : e.words ≤ image.words.size
  word_lt : ∀ i, i < e.words → image.word e i < wordValues
  codec : image.codec = ⟨e.start - bytesPerWord, 3⟩

lemma indexOf_addr (h : image.start = e.start) (i : ℕ) : image.indexOf (e.addr i) = i := by
  rw [indexOf, h, Extent.addr_eq, bytesPerWord]
  omega

lemma indexOf_half (h : image.start = e.start) (j : ℕ) :
    image.indexOf (e.start + 4 * j) = j / 2 := by
  rw [indexOf, h, bytesPerWord]
  omega

lemma isUpperHalf_half (h : image.start = e.start) (j : ℕ) :
    image.isUpperHalf (e.start + 4 * j) = decide (j % 2 = 1) := by
  rw [isUpperHalf, h, bytesPerWord]
  exact decide_eq_decide.2 (by omega)

/-! ## Writing -/

lemma word_setWord (h : image.Backs e) (hi : i < e.words) (v j : ℕ) :
    (image.setWord (e.addr i) v).word e j = if i = j then v else image.word e j := by
  have hroom := lt_of_lt_of_le hi h.room
  rw [word, wordAt_setWord, indexOf_addr h.start_eq, indexOf_addr h.start_eq]
  simp only [hroom, and_true]
  rfl

lemma Backs.setWord (h : image.Backs e) (hi : i < e.words) (hv : v < wordValues) :
    (image.setWord (e.addr i) v).Backs e where
  start_eq := h.start_eq
  room := by
    show e.words ≤ (image.words.set _ _).size
    rw [Table.size_set]
    exact h.room
  word_lt j hj := by
    rw [word_setWord h hi]
    split
    · exact hv
    · exact h.word_lt j hj
  codec := h.codec

lemma read_slot (h : image.Backs e) (a : Place) :
    image.read (a.slot e) = a.cell image.codec (image.value e a) := by
  cases a with
  | word i => rfl
  | half j =>
    have hword : image.wordAt (e.start + 4 * j) = image.word e (j / 2) := by
      rw [wordAt, indexOf_half h.start_eq, word, wordAt, indexOf_addr h.start_eq]
    show Cell.narrow image.codec (image.halfAt (e.start + 4 * j))
      = Cell.narrow image.codec (image.value e (.half j))
    rw [halfAt, isUpperHalf_half h.start_eq, hword, value, Place.get, Place.index]
    simp only [decide_eq_true_eq]

lemma write_slot (h : image.Backs e) (a : Place) (c : Codec) (x : ℕ) :
    image.write (a.slot e) (a.cell c x)
      = image.setWord (e.addr a.index) (a.put (image.word e a.index) x) := by
  cases a with
  | word i => rfl
  | half j =>
    have hword : image.wordAt (e.start + 4 * j) = image.word e (j / 2) := by
      rw [wordAt, indexOf_half h.start_eq, word, wordAt, indexOf_addr h.start_eq]
    have hset : ∀ v, image.setWord (e.start + 4 * j) v = image.setWord (e.addr (j / 2)) v :=
      fun v => by
      rw [MemoryImage.setWord, MemoryImage.setWord, indexOf_half h.start_eq,
        indexOf_addr h.start_eq]
    show image.setHalf (e.start + 4 * j) x = _
    rw [setHalf, isUpperHalf_half h.start_eq, hword, hset, Place.put, Place.index]
    simp only [decide_eq_true_eq]

/-- Writing a place changes its word and no other. -/
theorem word_write (h : image.Backs e) (ha : a.index < e.words) (c : Codec) (x j : ℕ) :
    (image.write (a.slot e) (a.cell c x)).word e j
      = if a.index = j then a.put (image.word e a.index) x else image.word e j := by
  rw [write_slot h, word_setWord h ha]

lemma Backs.write (h : image.Backs e) (ha : a.index < e.words) (c : Codec) (hx : x < a.values) :
    (image.write (a.slot e) (a.cell c x)).Backs e := by
  rw [write_slot h]
  exact h.setWord ha (Place.put_lt (h.word_lt _ ha) hx)

lemma value_write_self (h : image.Backs e) (ha : a.index < e.words) (c : Codec)
    (hx : x < a.values) :
    (image.write (a.slot e) (a.cell c x)).value e a = x := by
  rw [value, word_write h ha, if_pos rfl, Place.get_put hx]

lemma value_write_of_not_meets (h : image.Backs e) (ha : a.index < e.words) (c : Codec)
    (hx : x < a.values) (hab : ¬a.Meets b) :
    (image.write (a.slot e) (a.cell c x)).value e b = image.value e b := by
  rw [value, word_write h ha]
  by_cases heq : a.index = b.index
  · rw [if_pos heq, Place.get_put_of_not_meets hab heq hx, heq]
    rfl
  · rw [if_neg heq]
    rfl

/-! ## Copying -/

lemma setWords_backs (h : image.Backs e) (hd : d + n ≤ e.words) (f : ℕ → ℕ)
    (hf : ∀ k, k < n → f k < wordValues) :
    (image.setWords (e.addr d) ((List.range n).map f)).Backs e
      ∧ ∀ x, (image.setWords (e.addr d) ((List.range n).map f)).word e x
          = if d ≤ x ∧ x < d + n then f (x - d) else image.word e x := by
  induction n generalizing image d f with
  | zero =>
    refine ⟨h, fun x => ?_⟩
    rw [if_neg (by omega)]
    rfl
  | succ n ih =>
    have hnext : e.addr d + bytesPerWord = e.addr (d + 1) := e.addr_add d 1
    have hset := h.setWord (i := d) (by omega) (hf 0 (by omega))
    obtain ⟨hbacks, hwords⟩ := ih hset (d := d + 1) (by omega) (fun k => f (k + 1)) fun k hk =>
      hf (k + 1) (by omega)
    have hlist : (List.range (n + 1)).map f = f 0 :: (List.range n).map fun k => f (k + 1) := by
      rw [List.range_succ_eq_map, List.map_cons, List.map_map]
      rfl
    rw [hlist, setWords, hnext]
    refine ⟨hbacks, fun x => ?_⟩
    rw [hwords x, word_setWord h (by omega)]
    by_cases hx : d = x
    · subst hx
      rw [if_neg (by omega), if_pos rfl, if_pos (by omega), Nat.sub_self]
    · rw [if_neg hx]
      by_cases hin : d + 1 ≤ x ∧ x < d + 1 + n
      · rw [if_pos hin, if_pos (by omega), show x - (d + 1) + 1 = x - d by omega]
      · rw [if_neg hin, if_neg (by omega)]

lemma copyWords_eq (image : MemoryImage) (e : Extent) (s d n : ℕ) :
    image.copyWords (e.addr s) (e.addr d) n
    = image.setWords (e.addr d) ((List.range n).map fun k => image.word e (s + k)) := by
  rw [copyWords, wordsFrom]
  simp only [Extent.addr_add, word]

/-- Copying moves words to their new places and changes no other. -/
theorem word_copyWords (h : image.Backs e) (hs : s + n ≤ e.words) (hd : d + n ≤ e.words) (x : ℕ) :
    (image.copyWords (e.addr s) (e.addr d) n).word e x
      = if d ≤ x ∧ x < d + n then image.word e (s + (x - d)) else image.word e x := by
  rw [copyWords_eq]
  exact (setWords_backs h hd _ fun k hk => h.word_lt _ (by omega)).2 x

lemma Backs.copyWords (h : image.Backs e) (hs : s + n ≤ e.words) (hd : d + n ≤ e.words) :
    (image.copyWords (e.addr s) (e.addr d) n).Backs e := by
  rw [copyWords_eq]
  exact (setWords_backs h hd _ fun k hk => h.word_lt _ (by omega)).1

/-! ## Fillers -/

/-- The header of a filler. -/
def fillerHeader (words : ℕ) : ℕ :=
  fillerFlag + words * sizeUnit

lemma fillDead_eq (hpos : 0 < n) (hlt : n < sizeLimit) :
    image.fillDead (e.addr d) n = .ok (image.setWord (e.addr d) (fillerHeader n)) := by
  have hmod : fillerHeader n % wordValues = fillerHeader n := Nat.mod_eq_of_lt (by
    simp only [fillerHeader, fillerFlag, sizeUnit, wordValues, sizeLimit] at hlt ⊢
    omega)
  rw [fillDead, if_neg (by omega)]
  exact congrArg (fun word => Except.ok (image.setWord (e.addr d) word)) hmod

lemma fillerHeader_lt (hlt : n < sizeLimit) : fillerHeader n < wordValues := by
  simp only [fillerHeader, fillerFlag, sizeUnit, wordValues, sizeLimit] at hlt ⊢
  omega

lemma fillerHeader_div (n : ℕ) : fillerHeader n / sizeUnit = n := by
  simp only [fillerHeader, fillerFlag, sizeUnit]
  omega

end MemoryImage

end MarkCompact
