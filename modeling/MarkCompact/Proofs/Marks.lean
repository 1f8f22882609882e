import MarkCompact.MarkBitmap.Basic
import MarkCompact.Proofs.BitSearch
import MarkCompact.Proofs.Objects

/-!
# A mark bitmap as a set of disjoint objects

`m.Marks objs` says that the two sets of bits hold exactly the first and the last words of `objs`.
Marking adds an object, clearing a range that no object reaches across removes those in it, and each
search and each count of the bitmap reads as a fact about the objects.

Main statements: `Marks.mark_eq` (marking), `Marks.liveWords_eq` (counting live words),
`Marks.lastIn_begins` (the object around a live word).
-/

namespace MarkCompact

/-- The address of word number `i` of the range. -/
def Extent.addr (e : Extent) (i : ℕ) : ℕ :=
  e.start + bytesPerWord * i

namespace Extent

variable {e : Extent} {i j : ℕ}

lemma addr_eq (e : Extent) (i : ℕ) : e.addr i = e.start + 8 * i := rfl

@[simp] lemma addr_lt_addr : e.addr i < e.addr j ↔ i < j := by
  simp only [addr_eq]
  omega

@[simp] lemma addr_le_addr : e.addr i ≤ e.addr j ↔ i ≤ j := by
  simp only [addr_eq]
  omega

/-- An address inside of a word is behind the words up to it. -/
lemma addr_le_byte {b : ℕ} (hb : b < 8) : e.addr i ≤ e.addr j + b ↔ i ≤ j := by
  rw [addr_eq, addr_eq]
  omega

/-- An address inside of a word is in front of the words behind it. -/
lemma byte_lt_addr {b : ℕ} (hb : b < 8) : e.addr j + b < e.addr i ↔ j < i := by
  rw [addr_eq, addr_eq]
  omega

@[simp] lemma addr_inj : e.addr i = e.addr j ↔ i = j := by
  simp only [addr_eq]
  omega

lemma addr_add (e : Extent) (i n : ℕ) : e.addr i + bytesPerWord * n = e.addr (i + n) := by
  simp only [addr, Nat.mul_add, Nat.add_assoc]

lemma min_addr (e : Extent) (i j : ℕ) : min (e.addr i) (e.addr j) = e.addr (min i j) := by
  simp only [addr_eq]
  omega

/-- The distance of two addresses is the distance of their words. -/
lemma delta_addr_eq_ok_iff {n : ℕ} :
    Word.delta (e.addr j) (e.addr i) = .ok n ↔ i ≤ j ∧ n = j - i := by
  rw [Word.delta_eq_ok_iff, addr_le_addr, addr_eq, addr_eq, bytesPerWord]
  omega

lemma delta_addr (h : i ≤ j) : Word.delta (e.addr j) (e.addr i) = .ok (j - i) :=
  delta_addr_eq_ok_iff.2 ⟨h, rfl⟩

/-- A word of the range lies at an offset of whole words. -/
lemma offset_addr (h : e.start + e.size < wordValues) (hi : i ≤ e.words) :
    e.offset (e.addr i) = .ok (8 * i) := by
  have hle : 8 * i ≤ e.size := by
    rw [words, bytesPerWord, Nat.le_div_iff_mul_le (by decide)] at hi
    omega
  rw [offset_eq_ok h (by rw [addr_eq]; omega) (by rw [addr_eq]; omega), addr_eq,
    Nat.add_sub_cancel_left]

lemma offset_byte {b : ℕ} (h : e.start + e.size < wordValues) (hi : i < e.words) (hb : b < 8) :
    e.offset (e.addr i + b) = .ok (8 * i + b) := by
  have hsize : 8 * i + b < e.size := by
    rw [words, bytesPerWord] at hi
    omega
  rw [offset_eq_ok h (by rw [addr_eq]; omega) (by rw [addr_eq]; omega), addr_eq, Nat.add_assoc,
    Nat.add_sub_cancel_left]

end Extent

namespace MarkBitmap

/-- The bitmap marks exactly the objects `objs`, given by word numbers. -/
structure Marks (m : MarkBitmap) (objs : List Span) : Prop where
  covered_lt : m.covered.start + m.covered.size < wordValues
  begins_valid : m.begins.Valid
  ends_valid : m.ends.Valid
  begins_size : m.begins.size = m.covered.words
  ends_size : m.ends.size = m.covered.words
  separate : Separate objs
  past_le : ∀ o ∈ objs, o.past ≤ m.covered.words
  mem_begins : ∀ i, m.begins.mem i ↔ Starts objs i
  mem_ends : ∀ i, m.ends.mem i ↔ ∃ o ∈ objs, o.past = i + 1

variable {m : MarkBitmap} {objs : List Span} {o : Span} {a b w x : ℕ}

/-- The order of the objects does not matter. -/
lemma Marks.perm {os : List Span} (h : m.Marks objs) (hperm : objs.Perm os) : m.Marks os :=
  { h with
    separate := h.separate.perm hperm
    past_le := fun o ho => h.past_le o (hperm.mem_iff.2 ho)
    mem_begins := fun i => by simpa only [Starts, hperm.mem_iff] using h.mem_begins i
    mem_ends := fun i => by simpa only [hperm.mem_iff] using h.mem_ends i }

lemma addrOf_eq (m : MarkBitmap) (i : ℕ) : m.addrOf i = m.covered.addr i := rfl

lemma bitOf_addr (h : m.covered.start + m.covered.size < wordValues) (ha : a ≤ m.covered.words) :
    m.bitOf (m.covered.addr a) = .ok a := by
  rw [bitOf, Extent.offset_addr h ha]
  show Except.ok (8 * a / 8) = _
  rw [Nat.mul_div_cancel_left _ (by decide)]

namespace Marks

lemma size_eq (h : m.Marks objs) : m.size = m.covered.words :=
  h.begins_size

lemma bitOf_addr (h : m.Marks objs) (ha : a ≤ m.covered.words) :
    m.bitOf (m.covered.addr a) = .ok a :=
  MarkBitmap.bitOf_addr h.covered_lt ha

lemma start_lt (h : m.Marks objs) (ho : o ∈ objs) : o.start < m.covered.words :=
  lt_of_lt_of_le (h.separate.start_lt_past ho) (h.past_le o ho)

lemma live_lt (h : m.Marks objs) (hw : Live objs w) : w < m.covered.words := by
  obtain ⟨o, ho, hcov⟩ := hw
  exact lt_of_lt_of_le hcov.2 (h.past_le o ho)

/-! ## Searches -/

lemma firstIn_begins (h : m.Marks objs) (hab : a ≤ b) :
    IsFirst (Starts objs) a b (m.begins.firstIn a b) := by
  have found := Bitset.firstIn_spec h.begins_valid hab
  exact ⟨found.start_le, found.le_stop, fun hlt => (h.mem_begins _).1 (found.holds hlt),
    fun j h1 h2 hs => found.before j h1 h2 ((h.mem_begins j).2 hs)⟩

/-- From a boundary on, the words before the first object start are dead. -/
lemma liveBelow_firstIn (h : m.Marks objs) (hab : a ≤ b) (ha : Boundary objs a) :
    liveBelow objs (m.begins.firstIn a b) = liveBelow objs a :=
  have first := h.firstIn_begins hab
  liveBelow_of_dead first.start_le fun _ h1 h2 => not_live_of_boundary ha first.before h1 h2

/-- From inside an object, the next end is its own. -/
lemma firstIn_ends (h : m.Marks objs) (ho : o ∈ objs) (hx : o.Covers x) (hxb : x ≤ b) :
    m.ends.firstIn x b = min (o.past - 1) b := by
  have hpos := h.separate.start_lt_past ho
  obtain ⟨hx1, hx2⟩ := hx
  have found := Bitset.firstIn_spec h.ends_valid hxb
  have hnone : ∀ j, x ≤ j → j < o.past - 1 → ¬m.ends.mem j := by
    intro j h1 h2 hj
    obtain ⟨o', ho', hpast⟩ := (h.mem_ends j).1 hj
    have hpos' := h.separate.start_lt_past ho'
    rcases h.separate.eq_or_apart ho' ho with rfl | hap | hap
    · omega
    · omega
    · omega
  by_cases hlt : o.past - 1 < b
  · rw [min_eq_left (le_of_lt hlt)]
    exact found.eq_of_holds ((h.mem_ends _).2 ⟨o, ho, by omega⟩) (by omega) hlt hnone
  · rw [min_eq_right (not_lt.1 hlt)]
    exact found.eq_stop fun j h1 h2 => hnone j h1 (by omega)

/-- The last object start up to a live word is that of the object around it. -/
lemma lastIn_begins (h : m.Marks objs) (ho : o ∈ objs) (hw : o.Covers w) (ha : a ≤ o.start) :
    m.begins.lastIn a (w + 1) = some o.start := by
  obtain ⟨found, none⟩ := Bitset.lastIn_spec h.begins_valid a (w + 1)
  cases hlast : m.begins.lastIn a (w + 1) with
  | none =>
    exact absurd ((h.mem_begins _).2 ⟨o, ho, rfl⟩) (none hlast o.start ha (Nat.lt_succ_of_le hw.1))
  | some i =>
    obtain ⟨_, hi, hmem, hafter⟩ := found i hlast
    obtain ⟨o', ho', rfl⟩ := (h.mem_begins i).1 hmem
    rcases Nat.lt_trichotomy o'.start o.start with hlt | heq | hgt
    · exact absurd ((h.mem_begins _).2 ⟨o, ho, rfl⟩) (hafter o.start hlt (Nat.lt_succ_of_le hw.1))
    · rw [heq]
    · have hsame := h.separate.eq_of_covers ho ho' (w := o'.start)
        ⟨le_of_lt hgt, lt_of_le_of_lt (Nat.le_of_lt_succ hi) hw.2⟩
        ⟨le_refl _, h.separate.start_lt_past ho'⟩
      rw [hsame]

/-! ## Reading marks -/

lemma isMarked_eq (h : m.Marks objs) (hw : w < m.covered.words) :
    m.isMarked (m.covered.addr w) = .ok (m.begins.mem w) := by
  rw [isMarked, h.bitOf_addr (le_of_lt hw)]
  show m.begins.read w = _
  rw [Bitset.read, if_pos (h.begins_size ▸ hw)]
  rfl

/-- The bytes of a word have its bit. -/
lemma bitOf_byte (h : m.Marks objs) (hw : w < m.covered.words) (hb : b < 8) :
    m.bitOf (m.covered.addr w + b) = m.bitOf (m.covered.addr w) := by
  rw [h.bitOf_addr hw.le, bitOf, Extent.offset_byte h.covered_lt hw hb]
  show Except.ok ((8 * w + b) / 8) = _
  exact congrArg Except.ok (by omega)

lemma isMarked_byte (h : m.Marks objs) (hw : w < m.covered.words) (hb : b < 8) :
    m.isMarked (m.covered.addr w + b) = m.isMarked (m.covered.addr w) := by
  rw [isMarked, isMarked, h.bitOf_byte hw hb]

lemma objectSize_eq (h : m.Marks objs) (ho : o ∈ objs) :
    m.objectSize (m.covered.addr o.start) = .ok o.words := by
  have hlt := h.start_lt ho
  have hpos := h.separate.start_lt_past ho
  have hpast := h.past_le o ho
  have hsize := h.size_eq
  have hread : m.begins.read o.start = .ok true := by
    rw [Bitset.read, if_pos (h.begins_size ▸ hlt), (h.mem_begins _).2 ⟨o, ho, rfl⟩]
    rfl
  have hend : m.ends.firstIn o.start m.size = o.past - 1 := by
    rw [h.firstIn_ends ho ⟨le_refl _, hpos⟩ (by omega), hsize, min_eq_left (by omega)]
  have hwords : o.past - 1 - o.start + 1 = o.words := by
    simp only [Span.past] at hpos ⊢
    omega
  rw [objectSize, h.bitOf_addr (le_of_lt hlt)]
  simp only [bind, Except.bind, hread, hend, pure, Except.pure, hwords]
  rw [if_neg (by decide), if_neg (by omega)]

/-! ## Counting -/

/-- Counting goes from object to object; what it adds up is the live words from the first object
start on. -/
lemma countLive_eq (h : m.Marks objs) {stop stopAddr tries first live : ℕ}
    (hstop : Boundary objs stop) (hfirst : first ≤ stop) (htries : stop - first < tries) :
    m.countLive stop stopAddr tries first live
      = .ok (live + (liveBelow objs stop - liveBelow objs (m.begins.firstIn first stop))) := by
  induction tries generalizing first live with
  | zero => omega
  | succ tries ih =>
    have found := h.firstIn_begins hfirst
    rw [countLive]
    dsimp only
    by_cases hend : stop ≤ m.begins.firstIn first stop
    · rw [if_pos hend, le_antisymm found.le_stop hend, Nat.sub_self]
      rfl
    · rw [if_neg hend]
      obtain ⟨o, ho, hbeg⟩ := found.holds (by omega)
      have hpos := h.separate.start_lt_past ho
      have hle : o.past ≤ stop := by
        by_contra hgt
        exact hstop o ho ⟨by omega, by omega⟩
      have hlast : m.ends.firstIn (m.begins.firstIn first stop) stop = o.past - 1 := by
        rw [← hbeg, h.firstIn_ends ho ⟨le_refl _, hpos⟩ (by omega), min_eq_left (by omega)]
      have hcount := liveBelow_covers ho (le_of_lt hpos) (le_refl o.past)
      have hnext : o.past - 1 + 1 = o.past := by omega
      have hstart := found.start_le
      have hmono : liveBelow objs o.past ≤ liveBelow objs stop := liveBelow_mono objs hle
      rw [hlast, if_neg (by omega), hnext, ih hle (by omega),
        h.liveBelow_firstIn hle (h.separate.boundary_past ho), ← hbeg]
      congr 1
      omega

/-- The live words counted from an address in word `a` up to one in a word where no object reaches
across are those of the objects that start in the range. -/
lemma liveWords_of_bits (h : m.Marks objs) {addr stop : ℕ} (haddr : m.bitOf addr = .ok a)
    (hstop : m.bitOf stop = .ok b) (hab : reach objs a ≤ b) (hb : Boundary objs b)
    (hwords : b ≤ m.covered.words) :
    m.liveWords addr stop = .ok (liveBelow objs b - liveBelow objs (reach objs a)) := by
  have hle := le_reach h.separate a
  have hab' : a ≤ b := le_trans hle hab
  have found := h.firstIn_begins hab'
  have hreach : reach objs a ≤ m.begins.firstIn a b := by
    by_contra hlt
    exact not_starts_of_lt_reach h.separate found.start_le (by omega) (found.holds (by omega))
  have hsame : liveBelow objs (m.begins.firstIn a b) = liveBelow objs (reach objs a) :=
    liveBelow_of_dead hreach fun w h1 h2 =>
      not_live_of_boundary (boundary_reach h.separate a)
        (fun j hj1 hj2 => found.before j (by omega) hj2) h1 h2
  rw [liveWords, hstop, haddr]
  simp only [bind, Except.bind, Bitset.checkRange_eq hab' (h.begins_size ▸ hwords)]
  rw [h.countLive_eq hb hab' (by omega), hsame, Nat.zero_add]

/-- The live words counted from word `a` up to a boundary are those of the objects that start in the
range. -/
theorem liveWords_eq (h : m.Marks objs) (hab : reach objs a ≤ b) (hb : Boundary objs b)
    (hwords : b ≤ m.covered.words) :
    m.liveWords (m.covered.addr a) (m.covered.addr b)
      = .ok (liveBelow objs b - liveBelow objs (reach objs a)) :=
  have hle := le_reach h.separate a
  h.liveWords_of_bits (h.bitOf_addr (by omega)) (h.bitOf_addr hwords) hab hb hwords

end Marks

/-! ## Marking -/

lemma marks_unmarked {covered : Extent} (h : covered.start + covered.size < wordValues) :
    (unmarked covered).Marks [] where
  covered_lt := h
  begins_valid := Bitset.valid_empty _
  ends_valid := Bitset.valid_empty _
  begins_size := rfl
  ends_size := rfl
  separate := ⟨by simp, List.Pairwise.nil⟩
  past_le := by simp
  mem_begins i := by simp [unmarked, Starts]
  mem_ends i := by simp [unmarked]

namespace Marks

/-- Marking an object that shares no word with a marked one adds it. -/
theorem mark_eq (h : m.Marks objs) (hsep : Separate (o :: objs)) (hpast : o.past ≤ m.covered.words)
    (hfits : m.covered.words < wordValues) :
    ∃ m', m.mark (m.covered.addr o.start) o.words = .ok (true, m') ∧ m'.Marks (o :: objs)
      ∧ m'.covered = m.covered := by
  have hpos := hsep.words_pos o (List.mem_cons_self ..)
  have hlt : o.start < m.covered.words := by
    simp only [Span.past] at hpast
    omega
  have hnew : m.begins.mem o.start = false := by
    rw [Bool.eq_false_iff, Ne, h.mem_begins]
    rintro ⟨o', ho', heq⟩
    have hpos' := h.separate.start_lt_past ho'
    rcases hsep.apart_head ho' with hap | hap
    · simp only [Span.past] at hap
      omega
    · omega
  have hbegins : m.begins.insert o.start = .ok (true, m.begins.set o.start) := by
    rw [Bitset.insert, if_pos (h.begins_size ▸ hlt), hnew]
    rfl
  have hlast : o.start + o.words - 1 < m.ends.size := by
    rw [h.ends_size]
    simp only [Span.past] at hpast
    omega
  have hends : ∃ fresh, m.ends.insert (o.start + o.words - 1)
      = .ok (fresh, m.ends.set (o.start + o.words - 1)) := by
    have hfree : m.ends.mem (o.start + o.words - 1) = false := by
      rw [Bool.eq_false_iff, Ne, h.mem_ends]
      rintro ⟨o', ho', heq⟩
      have hpos' := h.separate.start_lt_past ho'
      rcases hsep.apart_head ho' with hap | hap <;> simp only [Span.past] at hap hpos' heq <;> omega
    exact ⟨true, by rw [Bitset.insert, if_pos hlast, hfree]; rfl⟩
  obtain ⟨fresh, hends⟩ := hends
  refine ⟨{ m with begins := m.begins.set o.start, ends := m.ends.set (o.start + o.words - 1) },
    ?_, ?_, rfl⟩
  · rw [mark, if_neg (by omega), h.bitOf_addr (le_of_lt hlt)]
    simp only [bind, Except.bind, hbegins, pure, Except.pure, if_true]
    rw [Word.add_eq (by simp only [Span.past] at hpast; omega)]
    simp only [hends]
  · exact
      { covered_lt := h.covered_lt
        begins_valid := h.begins_valid.set _
        ends_valid := h.ends_valid.set _
        begins_size := h.begins_size
        ends_size := h.ends_size
        separate := hsep
        past_le := fun o' ho' => by
          rcases List.mem_cons.1 ho' with rfl | hin
          · exact hpast
          · exact h.past_le o' hin
        mem_begins := fun i => by
          rw [Bitset.mem_set h.begins_valid (h.begins_size ▸ hlt), Bool.or_eq_true, h.mem_begins]
          simp [Starts, eq_comm]
        mem_ends := fun i => by
          rw [Bitset.mem_set h.ends_valid hlast, Bool.or_eq_true, h.mem_ends]
          have hiff : i = o.start + o.words - 1 ↔ o.past = i + 1 := by
            simp only [Span.past]
            omega
          simp [hiff] }

/-- Marking an object again changes nothing. -/
lemma mark_marked (h : m.Marks objs) (ho : o ∈ objs) {words : ℕ} (hwords : 0 < words) :
    m.mark (m.covered.addr o.start) words = .ok (false, m) := by
  have hlt := h.start_lt ho
  have hbegins : m.begins.insert o.start = .ok (false, m.begins) := by
    rw [Bitset.insert, if_pos (h.begins_size ▸ hlt), (h.mem_begins _).2 ⟨o, ho, rfl⟩]
    rfl
  rw [mark, if_neg (by omega), h.bitOf_addr (le_of_lt hlt)]
  simp only [bind, Except.bind, hbegins, pure, Except.pure]
  rfl

/-! ## Clearing -/

/-- Clearing a range that no object reaches into or out of forgets the objects in it. -/
theorem clear_eq (h : m.Marks objs) (hab : a ≤ b) (hb : b ≤ m.covered.words)
    (hwhole : ∀ o ∈ objs, (a ≤ o.start ∧ o.past ≤ b) ∨ o.past ≤ a ∨ b ≤ o.start) :
    ∃ m', m.clear (m.covered.addr a) (m.covered.addr b) = .ok m'
      ∧ m'.Marks (objs.filter fun o => ¬(a ≤ o.start ∧ o.start < b)) ∧ m'.covered = m.covered := by
  have hbegins : b ≤ m.begins.size := h.begins_size ▸ hb
  have hends : b ≤ m.ends.size := h.ends_size ▸ hb
  refine ⟨{ m with begins := m.begins.clear a b, ends := m.ends.clear a b }, ?_, ?_, rfl⟩
  · rw [clear, h.bitOf_addr (le_trans hab hb), h.bitOf_addr hb]
    simp only [bind, Except.bind, Bitset.clear?, Bitset.checkRange_eq hab hbegins,
      Bitset.checkRange_eq hab hends]
    rfl
  · have hmem : ∀ o, o ∈ objs.filter (fun o => ¬(a ≤ o.start ∧ o.start < b))
        ↔ o ∈ objs ∧ ¬(a ≤ o.start ∧ o.start < b) := by
      simp only [List.mem_filter, decide_eq_true_eq, implies_true]
    exact
      { covered_lt := h.covered_lt
        begins_valid := h.begins_valid.clear hbegins
        ends_valid := h.ends_valid.clear hends
        begins_size := (m.begins.size_clear a b).trans h.begins_size
        ends_size := (m.ends.size_clear a b).trans h.ends_size
        separate := h.separate.filter _
        past_le := fun o ho => h.past_le o ((hmem o).1 ho).1
        mem_begins := fun i => by
          simp only [Bitset.mem_clear h.begins_valid hbegins, Bool.and_eq_true, Bool.not_eq_true',
            Bool.and_eq_false_imp, decide_eq_true_eq, decide_eq_false_iff_not, h.mem_begins,
            Starts, hmem]
          constructor
          · rintro ⟨⟨o, ho, rfl⟩, hout⟩
            exact ⟨o, ⟨ho, fun hin => hout hin.1 hin.2⟩, rfl⟩
          · rintro ⟨o, ⟨ho, hout⟩, rfl⟩
            exact ⟨⟨o, ho, rfl⟩, fun h1 h2 => hout ⟨h1, h2⟩⟩
        mem_ends := fun i => by
          simp only [Bitset.mem_clear h.ends_valid hends, Bool.and_eq_true, Bool.not_eq_true',
            Bool.and_eq_false_imp, decide_eq_true_eq, decide_eq_false_iff_not, h.mem_ends, hmem]
          constructor
          · rintro ⟨⟨o, ho, heq⟩, hout⟩
            have hlt := h.separate.start_lt_past ho
            refine ⟨o, ⟨ho, fun hin => ?_⟩, heq⟩
            have := hwhole o ho
            exact hout (by omega) (by omega)
          · rintro ⟨o, ⟨ho, hout⟩, heq⟩
            have hlt := h.separate.start_lt_past ho
            refine ⟨⟨o, ho, heq⟩, fun h1 h2 => hout ?_⟩
            have := hwhole o ho
            omega }

end Marks

end MarkBitmap

end MarkCompact
