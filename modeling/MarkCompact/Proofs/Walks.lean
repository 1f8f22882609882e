import MarkCompact.MarkBitmap.Walk
import MarkCompact.Proofs.Marks

/-!
# Walks follow the objects of a range

`Chain objs a os c` says that `os` are the objects met one after the other when going from word `a`
up to word `c`, and `Pieces` is the same with the gaps between them.  Each walk over a bitmap lists
such a chain, and tells which object, if any, reaches past the end of the range.

Main statements: `Marks.objectsIn_eq`, `Marks.piecesIn_eq`, `Marks.liveObjects_eq`.
-/

namespace MarkCompact

/-- The span as a run of addresses. -/
def Span.run (o : Span) (e : Extent) : Run :=
  ⟨e.addr o.start, o.words⟩

/-- No word from `a` up to, not including, `b` is live. -/
def Dead (objs : List Span) (a b : ℕ) : Prop :=
  ∀ w, a ≤ w → w < b → ¬Live objs w

/-- Going from word `a` up to word `c` one meets the objects `os`; the last one ends at `c`. -/
inductive Chain (objs : List Span) : ℕ → List Span → ℕ → Prop
  | nil (a : ℕ) : Chain objs a [] a
  | cons {a c : ℕ} {o : Span} {rest : List Span} (mem : o ∈ objs) (start_le : a ≤ o.start)
      (dead : Dead objs a o.start) (next : Chain objs o.past rest c) : Chain objs a (o :: rest) c

/-- The words from `a` up to, not including, `b` are dead, and so many as there are below
`limit`. -/
structure Gap (objs : List Span) (limit a b : ℕ) : Prop where
  lt : a < b
  le_limit : b ≤ limit
  dead : Dead objs a b
  starts : b < limit → Starts objs b

/-- Going from word `a` up to word `c` one meets the objects and gaps `pieces`; gaps are cut at
`limit`. -/
inductive Pieces (objs : List Span) (e : Extent) (limit : ℕ) : ℕ → List Piece → ℕ → Prop
  | nil (a : ℕ) : Pieces objs e limit a [] a
  | live {c : ℕ} {o : Span} {rest : List Piece} (mem : o ∈ objs)
      (next : Pieces objs e limit o.past rest c) :
      Pieces objs e limit o.start (.live (o.run e) :: rest) c
  | dead {a b c : ℕ} {rest : List Piece} (gap : Gap objs limit a b)
      (next : Pieces objs e limit b rest c) :
      Pieces objs e limit a (.dead (Span.run ⟨a, b - a⟩ e) :: rest) c

variable {objs os : List Span} {o : Span} {a b c w : ℕ}

lemma Dead.mono {a' b' : ℕ} (h : Dead objs a b) (ha : a ≤ a') (hb : b' ≤ b) : Dead objs a' b' :=
  fun w h1 h2 => h w (le_trans ha h1) (lt_of_lt_of_le h2 hb)

lemma dead_of_boundary (ha : Boundary objs a) (hnone : ∀ j, a ≤ j → j < b → ¬Starts objs j) :
    Dead objs a b :=
  fun _ h1 h2 => not_live_of_boundary ha hnone h1 h2

/-- The object found first lies behind dead words. -/
lemma dead_start {i limit : ℕ} (ha : Boundary objs a) (found : IsFirst (Starts objs) a limit i) :
    Dead objs a i :=
  dead_of_boundary ha found.before

/-! ## Chains -/

namespace Chain

lemma mem_of_mem (h : Chain objs a os c) (ho : o ∈ os) : o ∈ objs := by
  induction h with
  | nil a => simp at ho
  | cons mem start_le dead next ih =>
    rcases List.mem_cons.1 ho with rfl | hin
    · exact mem
    · exact ih hin

lemma le (hsep : Separate objs) (h : Chain objs a os c) : a ≤ c := by
  induction h with
  | nil a => exact le_refl a
  | cons mem start_le dead next ih =>
    exact le_trans start_le (le_trans (le_of_lt (hsep.start_lt_past mem)) ih)

lemma bounds (hsep : Separate objs) (h : Chain objs a os c) (ho : o ∈ os) :
    a ≤ o.start ∧ o.past ≤ c := by
  induction h with
  | nil a => simp at ho
  | cons mem start_le dead next ih =>
    rcases List.mem_cons.1 ho with rfl | hin
    · exact ⟨start_le, next.le hsep⟩
    · exact ⟨le_trans start_le (le_trans (le_of_lt (hsep.start_lt_past mem)) (ih hin).1),
        (ih hin).2⟩

/-- The chain misses no live word. -/
lemma live_iff (h : Chain objs a os c) (h1 : a ≤ w) (h2 : w < c) :
    Live os w ↔ Live objs w := by
  constructor
  · rintro ⟨o, ho, hw⟩
    exact ⟨o, h.mem_of_mem ho, hw⟩
  · intro hw
    induction h with
    | nil a => omega
    | @cons a c o rest mem start_le dead next ih =>
      by_cases hlt : w < o.start
      · exact absurd hw (dead w h1 hlt)
      · by_cases hpast : w < o.past
        · exact ⟨o, List.mem_cons_self .., by omega, hpast⟩
        · exact live_cons.2 (Or.inr (ih (by omega) h2))

lemma separate (hsep : Separate objs) (h : Chain objs a os c) : Separate os := by
  induction h with
  | nil a => exact ⟨by simp, List.Pairwise.nil⟩
  | @cons a c o rest mem start_le dead next ih =>
    exact ih.cons (hsep.words_pos o mem) fun o' ho' => Or.inl (next.bounds hsep ho').1

end Chain

lemma Pieces.le {e : Extent} {limit : ℕ} {pieces : List Piece} (hsep : Separate objs)
    (h : Pieces objs e limit a pieces c) : a ≤ c := by
  induction h with
  | nil a => exact le_refl a
  | live mem next ih => exact le_trans (le_of_lt (hsep.start_lt_past mem)) ih
  | dead gap next ih => exact le_trans (le_of_lt gap.lt) ih

namespace MarkBitmap

variable {m : MarkBitmap} {first stop limit tries : ℕ}

/-- How a walk up to `stop` ends that has come to word `c`: every object was met, or one that
reaches past the end is left. -/
inductive WalkEnd (m : MarkBitmap) (objs : List Span) (c stop : ℕ) : Option ℕ → Prop
  | complete (dead : Dead objs c stop) (boundary : Boundary objs stop) : WalkEnd m objs c stop none
  | straddler {o : Span} (mem : o ∈ objs) (le_start : c ≤ o.start) (dead : Dead objs c o.start)
      (start_lt : o.start < stop) (lt_past : stop < o.past) :
      WalkEnd m objs c stop (some (m.covered.addr o.start))

lemma roundToWord_addr (m : MarkBitmap) (a : ℕ) :
    m.roundToWord (m.covered.addr a) = m.covered.addr a := by
  rw [roundToWord, Extent.addr_eq, bytesPerWord, Nat.add_sub_cancel_left,
    Nat.mul_div_cancel_left _ (by decide)]
  rfl

namespace Marks

lemma runOf_eq (h : m.Marks objs) (ho : o ∈ objs) :
    m.runOf o.start (o.past - 1) = o.run m.covered := by
  have hpos := h.separate.words_pos o ho
  have hwords : o.past - 1 - o.start + 1 = o.words := by
    simp only [Span.past]
    omega
  rw [runOf, hwords]
  rfl

lemma le_searchEnd (h : m.Marks objs) (hstop : stop ≤ m.covered.words) :
    stop ≤ m.searchEnd stop := by
  rw [searchEnd, h.size_eq]
  omega

/-! ## Live objects only -/

/-- The search goes from object to object; a word at which it goes on is a boundary. -/
lemma collectObjects_eq (h : m.Marks objs) (met : List Run) (hfirst : Boundary objs first)
    (hle : first ≤ stop) (hstop : stop ≤ limit) (htries : stop - first < tries) :
    ∃ os c straddler, m.collectObjects stop limit tries first met
        = ⟨met.reverse ++ os.map (Span.run · m.covered), straddler⟩
      ∧ Chain objs first os c ∧ c ≤ stop ∧ WalkEnd m objs c stop straddler := by
  induction tries generalizing first met with
  | zero => omega
  | succ tries ih =>
    have found := h.firstIn_begins (le_trans hle hstop)
    have hdead := dead_start hfirst found
    rw [collectObjects]
    dsimp only
    by_cases hend : stop ≤ m.begins.firstIn first limit
    · rw [if_pos hend]
      exact ⟨[], first, none, by simp, .nil first, hle,
        .complete (hdead.mono (le_refl _) hend)
          (hfirst.of_not_live hle (hdead.mono (le_refl _) hend))⟩
    · rw [if_neg hend]
      obtain ⟨o, ho, hbeg⟩ := found.holds (by omega)
      have hpos := h.separate.start_lt_past ho
      rw [← hbeg] at hend hdead ⊢
      have hstart := found.start_le
      rw [h.firstIn_ends ho ⟨le_refl _, hpos⟩ (by omega)]
      by_cases hover : stop ≤ min (o.past - 1) limit
      · rw [if_pos hover]
        exact ⟨[], first, some (m.covered.addr o.start), by simp [addrOf_eq], .nil first, hle,
          .straddler ho (by omega) hdead (by omega) (by omega)⟩
      · have hmin : min (o.past - 1) limit = o.past - 1 := by omega
        have hnext : o.past - 1 + 1 = o.past := by omega
        rw [if_neg hover, hmin, h.runOf_eq ho, hnext]
        obtain ⟨os, c, straddler, heq, chain, hc, hwalk⟩ :=
          ih (o.run m.covered :: met) (h.separate.boundary_past ho) (by omega) (by omega)
        exact ⟨o :: os, c, straddler, by rw [heq]; simp, .cons ho (by omega) hdead chain, hc, hwalk⟩

/-- The objects that start from word `a` on and end by word `b`. -/
theorem objectsIn_eq (h : m.Marks objs) (ha : Boundary objs a) (hab : a ≤ b)
    (hb : b ≤ m.covered.words) :
    ∃ os c straddler, m.objectsIn (m.covered.addr a) (m.covered.addr b)
        = .ok ⟨os.map (Span.run · m.covered), straddler⟩
      ∧ Chain objs a os c ∧ c ≤ b ∧ WalkEnd m objs c b straddler := by
  have hsearch := h.le_searchEnd hb
  have hsize : m.searchEnd b ≤ m.begins.size := min_le_right ..
  obtain ⟨os, c, straddler, heq, chain, hc, hwalk⟩ :=
    h.collectObjects_eq [] ha hab hsearch (show b - a < b - a + 1 by omega)
  refine ⟨os, c, straddler, ?_, chain, hc, hwalk⟩
  rw [objectsIn, h.bitOf_addr (by omega), h.bitOf_addr hb]
  simp only [bind, Except.bind, Bitset.checkRange_eq (le_trans hab hsearch) hsize, heq]
  rfl

/-! ## Live objects and gaps -/

lemma gap_eq {next deadStop : ℕ} (hlt : a < min next deadStop) :
    m.gap a next deadStop = .dead (Span.run ⟨a, min next deadStop - a⟩ m.covered) := by
  have hwords : min next deadStop - 1 - a + 1 = min next deadStop - a := by omega
  rw [gap, runOf, hwords]
  rfl

/-- From an object start on, or past the end of the range. -/
lemma collectPieces_eq (h : m.Marks objs) {deadStop : ℕ} (met : List Piece)
    (hfirst : first < deadStop → Starts objs first) (hpast : Dead objs stop first)
    (hstop : stop ≤ deadStop) (hwords : deadStop ≤ m.covered.words)
    (htries : stop - first < tries) :
    ∃ pieces c straddler, m.collectPieces stop deadStop tries first met
      = ⟨met.reverse ++ pieces, straddler⟩
      ∧ Pieces objs m.covered deadStop (min first deadStop) pieces c
      ∧ ((straddler = none ∧ stop ≤ c ∧ c ≤ deadStop ∧ Dead objs stop c
        ∧ (c < deadStop → Starts objs c))
        ∨ ∃ o ∈ objs, straddler = some (m.covered.addr o.start) ∧ c = o.start ∧ c < stop
        ∧ stop < o.past) := by
  induction tries generalizing first met with
  | zero => omega
  | succ tries ih =>
    rw [collectPieces]
    by_cases hend : stop ≤ first
    · rw [if_pos hend]
      refine ⟨[], _, none, by simp, .nil _,
        Or.inl ⟨rfl, by omega, by omega, hpast.mono le_rfl (min_le_left _ _), fun hlt => ?_⟩⟩
      rw [min_eq_left (by omega)]
      exact hfirst (by omega)
    rw [if_neg hend]
    obtain ⟨o, ho, rfl⟩ := hfirst (by omega)
    have hpos := h.separate.start_lt_past ho
    have hsearch := h.le_searchEnd (le_trans hstop hwords)
    rw [min_eq_left (show o.start ≤ deadStop by omega)]
    dsimp only
    rw [h.firstIn_ends ho ⟨le_refl _, hpos⟩ (by omega)]
    by_cases hover : stop ≤ min (o.past - 1) (m.searchEnd stop)
    · rw [if_pos hover]
      exact ⟨[], _, some (m.covered.addr o.start), by simp [addrOf_eq], .nil _,
        Or.inr ⟨o, ho, rfl, rfl, by omega, by omega⟩⟩
    have hmin : min (o.past - 1) (m.searchEnd stop) = o.past - 1 := by omega
    have hnext : o.past - 1 + 1 = o.past := by omega
    rw [if_neg hover, hmin, h.runOf_eq ho, hnext]
    by_cases hlast : deadStop ≤ o.past
    · rw [if_pos hlast]
      have hle : o.past ≤ stop := by omega
      exact ⟨[.live (o.run m.covered)], o.past, none, by simp, .live ho (.nil _),
        Or.inl ⟨rfl, by omega, by omega, fun w h1 h2 => by omega, fun hlt => by omega⟩⟩
    rw [if_neg hlast]
    have hlimit := h.le_searchEnd hwords
    have found := h.firstIn_begins (a := o.past) (b := m.searchEnd deadStop) (by omega)
    have hdead := dead_start (h.separate.boundary_past ho) found
    have hstart := found.start_le
    generalize m.begins.firstIn o.past (m.searchEnd deadStop) = next at found hdead hstart ⊢
    have hfirst' : next < deadStop → Starts objs next := fun hlt => found.holds (by omega)
    by_cases hskip : o.past < next
    · rw [if_pos hskip, gap_eq (by omega)]
      obtain ⟨pieces, c, straddler, heq, chain, hwalk⟩ := ih
        (.dead (Span.run ⟨o.past, min next deadStop - o.past⟩ m.covered) :: .live
          (o.run m.covered) :: met)
        hfirst' (hdead.mono (show o.past ≤ stop by omega) le_rfl) (by omega)
      have hgap : Gap objs deadStop o.past (min next deadStop) :=
        ⟨by omega, by omega, hdead.mono (le_refl _) (by omega), fun hlt => by
          rw [min_eq_left (by omega)]
          exact found.holds (by omega)⟩
      exact ⟨_, c, straddler, by rw [heq]; simp, .live ho (.dead hgap chain), hwalk⟩
    · obtain rfl : next = o.past := by omega
      rw [if_neg hskip]
      obtain ⟨pieces, c, straddler, heq, chain, hwalk⟩ := ih (.live (o.run m.covered) :: met)
        hfirst' (hdead.mono (show o.past ≤ stop by omega) le_rfl) (by omega)
      rw [min_eq_left (by omega)] at chain
      exact ⟨_, c, straddler, by rw [heq]; simp, .live ho chain, hwalk⟩

/-- The objects that start from word `a` on and end by word `b`, and the gaps between them; the last
gap may reach up to word `c`. -/
theorem piecesIn_eq (h : m.Marks objs) (ha : Boundary objs a) (hab : a < b) (hbc : b ≤ c)
    (hc : c ≤ m.covered.words) :
    ∃ pieces d straddler, m.piecesIn (m.covered.addr a) (m.covered.addr b) (m.covered.addr c)
        = .ok ⟨pieces, straddler⟩
      ∧ Pieces objs m.covered c a pieces d
      ∧ ((straddler = none ∧ b ≤ d ∧ d ≤ c ∧ Dead objs b d ∧ (d < c → Starts objs d))
        ∨ ∃ o ∈ objs, straddler = some (m.covered.addr o.start) ∧ d = o.start ∧ d < b
        ∧ b < o.past) := by
  rw [piecesIn, h.bitOf_addr (by omega), h.bitOf_addr (by omega), h.bitOf_addr hc]
  simp only [bind, Except.bind]
  rw [if_neg (by omega)]
  by_cases hbeg : m.begins.mem a
  · rw [if_pos hbeg]
    obtain ⟨pieces, d, straddler, heq, chain, hwalk⟩ :=
      h.collectPieces_eq [] (fun _ => (h.mem_begins a).1 hbeg)
        (fun w h1 h2 => by omega) hbc hc (show b - a < b - a + 1 by omega)
    rw [min_eq_left (by omega)] at chain
    exact ⟨pieces, d, straddler, by rw [heq]; rfl, chain, hwalk⟩
  · have hlimit := h.le_searchEnd hc
    have hsize : m.searchEnd c ≤ m.begins.size := min_le_right ..
    have found := h.firstIn_begins (a := a + 1) (b := m.searchEnd c) (by omega)
    have hnone : ∀ j, a ≤ j → j < m.begins.firstIn (a + 1) (m.searchEnd c) → ¬Starts objs j := by
      intro j h1 h2
      rcases Nat.eq_or_lt_of_le h1 with rfl | hlt
      · exact fun hs => hbeg ((h.mem_begins a).2 hs)
      · exact found.before j hlt h2
    have hdead := dead_of_boundary ha hnone
    have hstart := found.start_le
    rw [if_neg hbeg, Bitset.checkRange_eq (by omega) hsize]
    dsimp only
    rw [if_neg (by omega)]
    generalize m.begins.firstIn (a + 1) (m.searchEnd c) = next at found hnone hdead hstart ⊢
    rw [gap_eq (by omega)]
    have hgap : Gap objs c a (min next c) :=
      ⟨by omega, by omega, hdead.mono (le_refl _) (by omega), fun hlt => by
        rw [min_eq_left (by omega)]
        exact found.holds (by omega)⟩
    obtain ⟨pieces, d, straddler, heq, chain, hwalk⟩ :=
      h.collectPieces_eq [.dead (Span.run ⟨a, min next c - a⟩ m.covered)]
        (fun hlt => found.holds (by omega))
        (hdead.mono hab.le le_rfl) hbc hc
        (show b - next < b - a + 1 by omega)
    exact ⟨_, d, straddler, by rw [heq]; rfl, .dead hgap chain, hwalk⟩

/-! ## Listing -/

lemma listObjects_eq (h : m.Marks objs) (met : List Run) (hfirst : Boundary objs first)
    (hstop : stop ≤ m.covered.words) (htries : stop - first < tries) :
    ∃ os c resume, m.listObjects stop tries first met
      = .ok (met.reverse ++ os.map (Span.run · m.covered), resume)
      ∧ Chain objs first os c ∧ Dead objs c stop ∧ ∀ o ∈ os, o.start < stop := by
  induction tries generalizing first met with
  | zero => omega
  | succ tries ih =>
    rw [listObjects]
    by_cases hend : stop ≤ first
    · rw [if_pos hend]
      exact ⟨[], first, first, by simp [pure, Except.pure], .nil first,
        fun w h1 h2 => by omega, by simp⟩
    have found := h.firstIn_begins (a := first) (b := stop) (by omega)
    have hgap := dead_start hfirst found
    rw [if_neg hend]
    dsimp only
    by_cases hnone : stop ≤ m.begins.firstIn first stop
    · rw [if_pos hnone]
      exact ⟨[], first, stop, by simp [pure, Except.pure], .nil first,
        hgap.mono (le_refl _) hnone, by simp⟩
    obtain ⟨o, ho, hbeg⟩ := found.holds (by omega)
    have hpos := h.separate.start_lt_past ho
    have hpast := h.past_le o ho
    have hstart := found.start_le
    rw [if_neg hnone, ← hbeg,
      h.firstIn_ends ho ⟨le_refl _, hpos⟩ (by rw [h.size_eq]; omega), h.size_eq,
      min_eq_left (by omega), if_neg (by omega), h.runOf_eq ho, Nat.sub_add_cancel (by omega)]
    rw [← hbeg] at hgap hstart hnone
    obtain ⟨os, c, resume, heq, chain, hdead, hlt⟩ :=
      ih (o.run m.covered :: met) (h.separate.boundary_past ho) (by omega)
    refine ⟨o :: os, c, resume, by rw [heq]; simp, .cons ho hstart hgap chain, hdead, ?_⟩
    intro o' ho'
    rcases List.mem_cons.1 ho' with rfl | hin
    · omega
    · exact hlt o' hin

/-- All objects that start from word `a` on and before word `b`. -/
theorem liveObjects_eq (h : m.Marks objs) (ha : Boundary objs a) (hab : a ≤ b)
    (hb : b ≤ m.covered.words) :
    ∃ os c resume, m.liveObjects (m.covered.addr a) (m.covered.addr b) none
        = .ok (os.map (Span.run · m.covered), resume)
      ∧ Chain objs a os c ∧ Dead objs c b ∧ ∀ o ∈ os, o.start < b := by
  have hsize := h.size_eq
  obtain ⟨os, c, resume, heq, chain, hdead, hlt⟩ :=
    h.listObjects_eq [] ha hb (show b - a < m.size + 1 by omega)
  refine ⟨os, c, m.addrOf resume, ?_, chain, hdead, hlt⟩
  rw [liveObjects, h.bitOf_addr (by omega), h.bitOf_addr hb]
  simp only [bind, Except.bind, Option.getD_none, heq]
  rfl

end Marks

end MarkBitmap

end MarkCompact
