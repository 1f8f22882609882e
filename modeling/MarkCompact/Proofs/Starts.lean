import MarkCompact.Proofs.Marks
import MarkCompact.StartTable

/-!
# Recorded object starts lead to the object around a word

A start table never invents a start: `Records e p` says that every recorded address is that of a
word with property `p`, and `Between e must may` that, besides, the words in `must` have been
recorded; recording one more word adds it (`record_eq`).  Once every recorded word starts a tile of
a parsable range, the walk from the last recorded start at or before a word comes to the tile around
it (`objectStart_eq`).

So it makes no difference which tiles of a range are recorded, how often, and in which order: each
address below the end of the tiles leads to the tile around it.

Main statement: `create_recordAll_objectStart`.
-/

namespace MarkCompact

variable {e : Extent} {objectWords : ℕ → ℕ} {tiles : List Span} {a b c n x : ℕ} {p : ℕ → Prop}

namespace StartTable

/-- Every recorded start is that of a word with property `p`. -/
def Records (t : StartTable) (e : Extent) (p : ℕ → Prop) : Prop :=
  ∀ card start, t.recorded? card = some start → ∃ i, start = e.addr i ∧ p i

/-- The table covers the words from `a` up to, not including, `b`. -/
structure Covers (t : StartTable) (e : Extent) (a b : ℕ) : Prop where
  covered : t.covered = ⟨e.addr a, 8 * (b - a)⟩
  le : a ≤ b
  stop_lt : e.addr b < wordValues

/-- The range of the table has the words from `a` up to, not including, `b`, and begins with the
first of them. -/
structure Includes (t : StartTable) (e : Extent) (a b : ℕ) : Prop where
  start_eq : t.covered.start = e.addr a
  le : a ≤ b
  le_stop : e.addr b ≤ t.covered.start + t.covered.size
  stop_lt : t.covered.start + t.covered.size < wordValues

variable {t : StartTable}

lemma Covers.stop_eq (h : t.Covers e a b) : t.covered.start + t.covered.size = e.addr b := by
  have hle := h.le
  rw [h.covered]
  simp only [Extent.addr_eq]
  omega

lemma Covers.includes (h : t.Covers e a b) : t.Includes e a b where
  start_eq := by rw [h.covered]
  le := h.le
  le_stop := h.stop_eq.ge
  stop_lt := h.stop_eq.trans_lt h.stop_lt

lemma Includes.cardOf_byte {d : ℕ} (hd : d < 8) (h : t.Includes e a b) (h1 : a ≤ x) (h2 : x < b) :
    t.cardOf (e.addr x + d) = .ok ((e.addr x + d - e.addr a) / cardBytes) := by
  have hlow : e.addr a ≤ e.addr x + d := (Extent.addr_le_byte hd).2 h1
  have hlt : e.addr x + d < e.addr b := (Extent.byte_lt_addr hd).2 h2
  have hstop := h.le_stop
  have hstart := h.start_eq
  rw [cardOf, Extent.contains_eq_ok h.stop_lt]
  show (if decide _ = true then _ else _) = _
  rw [if_pos (by simp only [decide_eq_true_eq]; omega), hstart]
  rfl

lemma Includes.cardOf_eq (h : t.Includes e a b) (h1 : a ≤ x) (h2 : x < b) :
    t.cardOf (e.addr x) = .ok ((e.addr x - e.addr a) / cardBytes) :=
  Includes.cardOf_byte (by decide : 0 < 8) h h1 h2

/-- Only words of the range have a card. -/
lemma Covers.of_cardOf_eq {card : ℕ} (h : t.Covers e a b) (hcard : t.cardOf (e.addr x) = .ok card) :
    a ≤ x ∧ x < b := by
  have hstop := h.stop_eq
  have hcontains :=
    Extent.contains_eq_ok (e := t.covered) (by rw [hstop]; exact h.stop_lt) (e.addr x)
  by_contra hout
  have hdecide : decide (e.addr a ≤ e.addr x ∧ e.addr x < e.addr b) = false := by simpa using hout
  rw [hstop, h.covered, hdecide] at hcontains
  rw [cardOf, h.covered, hcontains] at hcard
  obtain ⟨inside, hinside, hrest⟩ := bind_eq_ok_iff.1 hcard
  cases hinside
  rw [if_neg (by decide)] at hrest
  obtain ⟨stop, _, hthrow⟩ := bind_eq_ok_iff.1 hrest
  cases hthrow

/-- The table knows the starts of all words in `must`, and nothing but starts of words in `may`. -/
structure Between (t : StartTable) (e : Extent) (must may : ℕ → Prop) : Prop where
  /-- Every card of the range has an entry. -/
  full : t.covered.size ≤ t.cards.size * cardBytes
  sound : ∀ card start, t.recorded? card = some start → ∃ i, start = e.addr i ∧ may i
    ∧ t.cardOf start = .ok card
  complete : ∀ i, must i → ∀ card, t.cardOf (e.addr i) = .ok card →
    ∃ j, j ≤ i ∧ t.recorded? card = some (e.addr j)

lemma Between.records {must may : ℕ → Prop} (h : t.Between e must may) : t.Records e may := by
  intro card start hstart
  obtain ⟨i, heq, hi, _⟩ := h.sound card start hstart
  exact ⟨i, heq, hi⟩

lemma Between.mono {must must' may may' : ℕ → Prop} (h : t.Between e must may)
    (hmust : ∀ i, must' i → must i) (hmay : ∀ i, may i → may' i) : t.Between e must' may' where
  full := h.full
  sound card start hstart := by
    obtain ⟨i, heq, hi, hcard⟩ := h.sound card start hstart
    exact ⟨i, heq, hmay i hi, hcard⟩
  complete i hi := h.complete i (hmust i hi)

lemma between_unrecorded (covered : Extent) (may : ℕ → Prop) :
    (unrecorded covered).Between e (fun _ => False) may where
  full := by
    show covered.size ≤ (covered.size + (cardBytes - 1)) / cardBytes * cardBytes
    simp only [cardBytes]
    omega
  sound card start h := by simp [recorded?, unrecorded] at h
  complete i hi := hi.elim

/-- The table after a start has been recorded in its card. -/
def recording (t : StartTable) (card addr : ℕ) : StartTable :=
  let offset := (addr - (t.covered.start + card * cardBytes)) / bytesPerWord
  { t with cards := t.cards.modify card fun old => some (leastOffset old offset) }

lemma record_eq_recording {card addr : ℕ} (hcard : t.cardOf addr = .ok card) :
    t.record addr = .ok (t.recording card addr) := by
  rw [record, hcard]
  rfl

/-- Starts of a card are compared by their offsets. -/
lemma leastOffset_map {base addr offset : ℕ} (old : Option ℕ)
    (haddr : base + bytesPerWord * offset = addr) :
    base + bytesPerWord * leastOffset old offset
      = leastOffset (old.map fun offset => base + bytesPerWord * offset) addr := by
  cases old with
  | none => exact haddr
  | some old =>
    rw [Option.map_some, leastOffset, leastOffset, ← haddr, bytesPerWord]
    omega

/-- A card keeps the least start that is recorded. -/
lemma Includes.recorded_recording {card : ℕ} (h : t.Includes e a b)
    (hfull : t.covered.size ≤ t.cards.size * cardBytes) (h1 : a ≤ x) (h2 : x < b)
    (hcard : card = (e.addr x - e.addr a) / cardBytes) (card' : ℕ) :
    (t.recording card (e.addr x)).recorded? card'
      = if card = card' then some (leastOffset (t.recorded? card) (e.addr x))
        else t.recorded? card' := by
  have hstop := h.le_stop
  have hroom : card < t.cards.size := by
    rw [h.start_eq] at hstop
    simp only [hcard, cardBytes, Extent.addr_eq] at hfull hstop ⊢
    omega
  rw [recorded?, recording, Table.get_modify]
  by_cases hsame : card = card'
  · subst hsame
    rw [if_pos ⟨rfl, hroom⟩, if_pos rfl, Option.map_some, leastOffset_map, recorded?]
    simp only [hcard, h.start_eq, cardBytes, bytesPerWord, Extent.addr_eq]
    omega
  · rw [if_neg fun hand => hsame hand.1, if_neg hsame, recorded?]

/-- Recording a word adds it to the known starts. -/
theorem Includes.record_eq (h : t.Includes e a b) (h1 : a ≤ x) (h2 : x < b) :
    ∃ t', t.record (e.addr x) = .ok t' ∧ t'.covered = t.covered
      ∧ ∀ must may : ℕ → Prop, t.Between e must may → may x →
        t'.Between e (fun i => must i ∨ i = x) may := by
  have hcard := h.cardOf_eq h1 h2
  refine ⟨_, record_eq_recording hcard, rfl, fun must may hbetween hx => ?_⟩
  have hget := h.recorded_recording hbetween.full h1 h2 rfl
  generalize (e.addr x - e.addr a) / cardBytes = card at hcard hget ⊢
  refine ⟨?_, fun card' start hstart => ?_, fun i hi card' hcard' => ?_⟩
  · show t.covered.size ≤ (t.cards.modify card _).size * cardBytes
    rw [Table.size_modify]
    exact hbetween.full
  · rw [hget] at hstart
    split at hstart
    case isTrue hsame =>
      subst hsame
      cases hold : t.recorded? card with
      | none =>
        rw [hold] at hstart
        cases hstart
        exact ⟨x, rfl, hx, hcard⟩
      | some old =>
        rw [hold, leastOffset, Option.some.injEq] at hstart
        rcases min_choice old (e.addr x) with hmin | hmin
        · rw [hmin] at hstart
          exact hbetween.sound card start (hstart ▸ hold)
        · rw [hmin] at hstart
          exact ⟨x, hstart.symm, hx, hstart ▸ hcard⟩
    case isFalse => exact hbetween.sound card' start hstart
  · change t.cardOf (e.addr i) = .ok card' at hcard'
    rw [hget]
    split
    case isTrue hsame =>
      subst hsame
      -- The lesser one of two starts of words is the start of the lesser word.
      have hlower : ∀ j, t.recorded? card = some (e.addr j) →
          some (leastOffset (t.recorded? card) (e.addr x)) = some (e.addr (min j x)) :=
            fun j hj => by
        rw [hj, leastOffset, Extent.min_addr]
      rcases hi with hi | rfl
      · obtain ⟨j, hle, hj⟩ := hbetween.complete i hi card hcard'
        exact ⟨min j x, (Nat.min_le_left j x).trans hle, hlower j hj⟩
      · cases hold : t.recorded? card with
        | none => exact ⟨i, le_refl i, rfl⟩
        | some old =>
          obtain ⟨j, rfl, _⟩ := hbetween.sound card old hold
          exact ⟨min j i, Nat.min_le_right j i, hold ▸ hlower j hold⟩
    case isFalse hne =>
      rcases hi with hi | rfl
      · exact hbetween.complete i hi card' hcard'
      · rw [hcard] at hcard'
        cases hcard'
        exact absurd rfl hne

/-- A table knows all starts that lie outside of its range. -/
lemma Covers.between_outside {must may : ℕ → Prop} (h : t.Covers e a b)
    (hbetween : t.Between e must may) (hx : ¬(a ≤ x ∧ x < b)) :
    t.Between e (fun i => must i ∨ i = x) may where
  full := hbetween.full
  sound := hbetween.sound
  complete i hi card hcard := by
    rcases hi with hi | rfl
    · exact hbetween.complete i hi card hcard
    · exact absurd (h.of_cardOf_eq hcard) hx

/-- Two tables over one range that know the same starts agree. -/
theorem Between.recorded_eq {t' : StartTable} {starts : ℕ → Prop} (h : t.Between e starts starts)
    (h' : t'.Between e starts starts) (hcovered : t'.covered = t.covered) (card : ℕ) :
    t'.recorded? card = t.recorded? card := by
  have hcardOf : ∀ addr, t'.cardOf addr = t.cardOf addr := fun addr => by
    rw [cardOf, cardOf, hcovered]
  -- What one of them records, the other records too, no later.
  have hle : ∀ {t t' : StartTable} {i}, t.Between e starts starts → t'.Between e starts starts →
      (∀ addr, t'.cardOf addr = t.cardOf addr) → t.recorded? card = some (e.addr i) →
      ∃ j, j ≤ i ∧ t'.recorded? card = some (e.addr j) := by
    intro t t' i h h' hcardOf hi
    obtain ⟨i', heq, hstart, hcard⟩ := h.sound card _ hi
    obtain rfl := Extent.addr_inj.1 heq
    exact h'.complete i hstart card (by rw [hcardOf]; exact hcard)
  cases hfound : t.recorded? card with
  | none =>
    cases hfound' : t'.recorded? card with
    | none => rfl
    | some start =>
      obtain ⟨i, rfl, _⟩ := h'.sound card start hfound'
      obtain ⟨j, _, hj⟩ := hle h' h (fun addr => (hcardOf addr).symm) hfound'
      rw [hfound] at hj
      cases hj
  | some start =>
    obtain ⟨i, rfl, _⟩ := h.sound card start hfound
    obtain ⟨j, hji, hj⟩ := hle h h' hcardOf hfound
    obtain ⟨k, hkj, hk⟩ := hle h' h (fun addr => (hcardOf addr).symm) hj
    rw [hfound, Option.some.injEq, Extent.addr_inj] at hk
    rw [hj, show j = i by omega]

/-! ## Finding the object around a word -/

section

variable {d : ℕ} (hd : d < 8)
include hd

lemma startBefore_eq (h : t.Includes e a b) (hrecords : t.Records e p) (hx : a ≤ x) (card : ℕ) :
    ∃ i, t.startBefore (e.addr x + d) card = e.addr i ∧ i ≤ x ∧ (i = a ∨ p i) := by
  have hstart := h.start_eq
  induction card with
  | zero =>
    rw [startBefore, hstart]
    cases hfound : t.recorded? 0 with
    | none => exact ⟨a, rfl, hx, Or.inl rfl⟩
    | some start =>
      obtain ⟨i, rfl, hi⟩ := hrecords 0 start hfound
      dsimp only
      by_cases hle : i ≤ x
      · exact ⟨i, by rw [if_pos ((Extent.addr_le_byte hd).2 hle)], hle, Or.inr hi⟩
      · exact ⟨a, by rw [if_neg (mt (Extent.addr_le_byte hd).1 hle)], hx, Or.inl rfl⟩
  | succ card ih =>
    rw [startBefore]
    cases hfound : t.recorded? (card + 1) with
    | none => exact ih
    | some start =>
      obtain ⟨i, rfl, hi⟩ := hrecords (card + 1) start hfound
      dsimp only
      by_cases hle : i ≤ x
      · exact ⟨i, by rw [if_pos ((Extent.addr_le_byte hd).2 hle)], hle, Or.inr hi⟩
      · rw [if_neg (mt (Extent.addr_le_byte hd).1 hle)]
        exact ih

lemma walkTo_eq (h : Tiling a tiles c) (hsize : ∀ o ∈ tiles, objectWords (e.addr o.start) = o.words)
    (hlt : e.addr c < wordValues) (h1 : a ≤ x) (h2 : x < c) (htries : x - a < n) :
    ∃ o ∈ tiles, o.Covers x
      ∧ walkTo objectWords (e.addr x + d) n (e.addr a) = .ok (e.addr o.start) := by
  induction h generalizing n with
  | nil a => omega
  | @cons c o rest pos next ih =>
    obtain ⟨n, rfl⟩ : ∃ k, n = k + 1 := ⟨n - 1, by omega⟩
    have hle := next.le
    have hpast : o.past = o.start + o.words := rfl
    have hadd : Word.add (e.addr o.start) (Word.bytes o.words) = .ok (e.addr o.past) := by
      simp only [Extent.addr_eq] at hlt ⊢
      rw [Word.bytes, bytesPerWord, Nat.mod_eq_of_lt (by omega), Word.add_eq (by omega)]
      congr 1
      omega
    rw [walkTo, hsize o (List.mem_cons_self ..), hadd]
    show ∃ o' ∈ o :: rest, o'.Covers x
      ∧ (if e.addr x + d < e.addr o.past then pure (e.addr o.start)
        else walkTo objectWords (e.addr x + d) n (e.addr o.past)) = _
    by_cases hin : x < o.past
    · exact ⟨o, List.mem_cons_self .., ⟨h1, hin⟩,
        by rw [if_pos ((Extent.byte_lt_addr hd).2 hin)]; rfl⟩
    · obtain ⟨o', ho', hcov, heq⟩ :=
        ih (fun o' ho' => hsize o' (List.mem_cons_of_mem _ ho')) hlt (not_lt.1 hin) h2
        (show x - o.past < n by omega)
      exact ⟨o', List.mem_cons_of_mem _ ho', hcov,
        by rw [if_neg (mt (Extent.byte_lt_addr hd).1 hin), heq]⟩

/-- If every recorded start is that of a tile, the tile around any address is found. -/
theorem objectStart_eq (h : t.Includes e a b) (htiling : Tiling a tiles c) (hcb : c ≤ b)
    (hsize : ∀ o ∈ tiles, objectWords (e.addr o.start) = o.words)
    (hrecords : t.Records e (Starts tiles)) (h1 : a ≤ x) (h2 : x < c) :
    ∃ o ∈ tiles, o.Covers x ∧ t.objectStart objectWords (e.addr x + d) = .ok (e.addr o.start) := by
  have hlt : e.addr c < wordValues :=
    ((Extent.addr_le_addr.2 hcb).trans h.le_stop).trans_lt h.stop_lt
  obtain ⟨i, hbefore, hi, hstart⟩ :=
    startBefore_eq hd h hrecords h1 ((e.addr x + d - e.addr a) / cardBytes)
  -- Either way the walk begins at a tile.
  obtain ⟨rest, hrest, hsub⟩ : ∃ rest, Tiling i rest c ∧ ∀ o ∈ rest, o ∈ tiles := by
    rcases hstart with rfl | ⟨o, ho, rfl⟩
    · exact ⟨tiles, htiling, fun o ho => ho⟩
    · obtain ⟨rest, hrest, hsub⟩ := htiling.from_mem ho
      refine ⟨o :: rest, hrest, fun o' ho' => ?_⟩
      rcases List.mem_cons.1 ho' with rfl | hin
      · exact ho
      · exact hsub o' hin
  obtain ⟨o, ho, hcov, hwalk⟩ := walkTo_eq hd hrest (fun o ho => hsize o (hsub o ho)) hlt hi h2
    (show x - i < e.addr x + d - e.addr i + 1 by simp only [Extent.addr_eq]; omega)
  refine ⟨o, hsub o ho, hcov, ?_⟩
  rw [objectStart, h.cardOf_byte hd h1 (by omega)]
  show walkTo objectWords (e.addr x + d) (e.addr x + d - t.startBefore _ _ + 1) (t.startBefore _ _)
    = _
  rw [hbefore, hwalk]

end

/-! ## Recording in any order -/

/-- Records the starts of the spans one after the other. -/
def recordAll (t : StartTable) : List Span → Except Fault StartTable
  | [] => pure t
  | o :: rest => do
    let t ← t.record (t.covered.addr o.start)
    t.recordAll rest

/-- All starts that are recorded are known from then on. -/
lemma recordAll_eq {calls : List Span} {must may : ℕ → Prop} (h : t.Includes t.covered 0 b)
    (hcalls : ∀ o ∈ calls, o.start < b ∧ may o.start) (hbetween : t.Between t.covered must may) :
    ∃ t', t.recordAll calls = .ok t' ∧ t'.covered = t.covered
      ∧ t'.Between t.covered (fun i => must i ∨ Starts calls i) may := by
  induction calls generalizing t must with
  | nil =>
    exact ⟨t, rfl, rfl,
      hbetween.mono (fun i hi => hi.resolve_right fun ⟨o, ho, _⟩ => absurd ho List.not_mem_nil)
      fun i => id⟩
  | cons o rest ih =>
    obtain ⟨hlt, hmay⟩ := hcalls o List.mem_cons_self
    obtain ⟨t₁, hrecord, hcovered₁, hknown⟩ := h.record_eq (Nat.zero_le _) hlt
    have h₁ : t₁.Includes t₁.covered 0 b := by
      rw [hcovered₁]
      exact ⟨hcovered₁ ▸ h.start_eq, h.le, hcovered₁ ▸ h.le_stop, hcovered₁ ▸ h.stop_lt⟩
    obtain ⟨t', hrest, hcovered, hall⟩ :=
      ih h₁ (fun o' ho' => hcalls o' (List.mem_cons_of_mem _ ho'))
      (hcovered₁.symm ▸ hknown must may hbetween hmay)
    refine ⟨t', ?_, hcovered.trans hcovered₁, ?_⟩
    · rw [recordAll, hrecord]
      exact hrest
    · rw [hcovered₁] at hall
      refine hall.mono (fun i hi => ?_) fun i => id
      rcases hi with hi | ⟨o', ho', rfl⟩
      · exact Or.inl (Or.inl hi)
      · rcases List.mem_cons.1 ho' with rfl | hin
        · exact Or.inl (Or.inr rfl)
        · exact Or.inr ⟨o', hin, rfl⟩

/-- Tiles of a range are recorded, not all of them perhaps, in any order, and some of them more than
once.  Then the tile around any address is found. -/
theorem create_recordAll_objectStart {covered : Extent} {t : StartTable} {calls : List Span}
    (hcreate : create covered = .ok t) (hstop : covered.start + covered.size < wordValues)
    (htiling : Tiling 0 tiles c) (hc : covered.addr c ≤ covered.start + covered.size)
    (hsize : ∀ o ∈ tiles, objectWords (covered.addr o.start) = o.words)
    (hcalls : ∀ o ∈ calls, o ∈ tiles) :
    ∃ t', t.recordAll calls = .ok t' ∧ ∀ addr, covered.start ≤ addr → addr < covered.addr c →
      ∃ o ∈ tiles, covered.addr o.start ≤ addr ∧ addr < covered.addr o.past
        ∧ t'.objectStart objectWords addr = .ok (covered.addr o.start) := by
  obtain ⟨_, -, hpure⟩ := bind_eq_ok_iff.1 hcreate
  cases hpure
  have hincludes : (unrecorded covered).Includes covered 0 c :=
    ⟨by rw [Extent.addr_eq]; rfl, Nat.zero_le _, hc, hstop⟩
  have hrecorded : ∀ o ∈ calls, o.start < c ∧ Starts tiles o.start := fun o ho =>
    ⟨(htiling.separate.start_lt_past (hcalls o ho)).trans_le (htiling.bounds (hcalls o ho)).2, o,
      hcalls o ho, rfl⟩
  obtain ⟨t', hall, hcovered, hbetween⟩ :=
    recordAll_eq hincludes hrecorded (between_unrecorded covered _)
  have hincludes' : t'.Includes covered 0 c :=
    ⟨hcovered ▸ hincludes.start_eq, hincludes.le, hcovered ▸ hincludes.le_stop,
      hcovered ▸ hincludes.stop_lt⟩
  refine ⟨t', hall, fun addr hlow hlt => ?_⟩
  -- The address lies in a word `x` of the range.
  obtain ⟨x, d, hd, rfl⟩ : ∃ x d, d < 8 ∧ covered.addr x + d = addr :=
    ⟨(addr - covered.start) / 8, (addr - covered.start) % 8, Nat.mod_lt _ (by decide),
      by rw [Extent.addr_eq]; omega⟩
  obtain ⟨o, ho, ⟨hx1, hx2⟩, heq⟩ :=
    objectStart_eq hd hincludes' htiling le_rfl hsize hbetween.records
    (Nat.zero_le x) ((Extent.byte_lt_addr hd).1 hlt)
  exact ⟨o, ho, (Extent.addr_le_byte hd).2 hx1, (Extent.byte_lt_addr hd).2 hx2, heq⟩

/-- Of three tiles only the last one is recorded, twice.  It begins in the second card, behind the
first address asked for, and is the last record before the second one. -/
theorem create_recordAll_objectStart_lateRecord : Tiling 0 [⟨0, 100⟩, ⟨100, 10⟩, ⟨110, 90⟩] 200
    ∧ ∃ t t', create ⟨4096, 1604⟩ = .ok t ∧ t.recordAll [⟨110, 90⟩, ⟨110, 90⟩] = .ok t'
      ∧ t'.objectStart (fun addr => if addr = 4096 then 100 else if addr = 4896 then 10
        else 90) 4939 = .ok 4896
      ∧ t'.objectStart (fun addr => if addr = 4096 then 100 else if addr = 4896 then 10
        else 90) 5656 = .ok 4976 := by
  have htiling : Tiling 0 [⟨0, 100⟩, ⟨100, 10⟩, ⟨110, 90⟩] 200 :=
    .cons (o := ⟨0, 100⟩) (by decide)
      (.cons (o := ⟨100, 10⟩) (by decide) (.cons (o := ⟨110, 90⟩) (by decide) (.nil 200)))
  have hcreate : create ⟨4096, 1604⟩ = .ok (unrecorded ⟨4096, 1604⟩) := create_eq_ok (by decide)
  obtain ⟨t', hall, hfound⟩ := @create_recordAll_objectStart
    (fun addr => if addr = 4096 then 100 else if addr = 4896 then 10
      else 90) _ 200 _ _ [⟨110, 90⟩, ⟨110, 90⟩]
    hcreate (by decide) htiling (by decide) (by decide) (by decide)
  refine ⟨htiling, _, t', hcreate, hall, ?_, ?_⟩
  · obtain ⟨o, ho, h1, h2, heq⟩ := hfound 4939 (by decide) (by decide)
    simp only [List.mem_cons, List.not_mem_nil, or_false] at ho
    rcases ho with rfl | rfl | rfl
    · exact absurd h2 (by decide)
    · exact heq
    · exact absurd h1 (by decide)
  · obtain ⟨o, ho, h1, h2, heq⟩ := hfound 5656 (by decide) (by decide)
    simp only [List.mem_cons, List.not_mem_nil, or_false] at ho
    rcases ho with rfl | rfl | rfl
    · exact absurd h2 (by decide)
    · exact absurd h2 (by decide)
    · exact heq

end StartTable

end MarkCompact
