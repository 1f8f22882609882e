import MarkCompact.Proofs.Addresses
import MarkCompact.Reservation

/-!
# Aligned reservations

A request is rounded up to whole pages as a signed word and then mapped with room for the alignment.
Up to half of the words this is exact.  Around the half the signed sum overflows, and a request that
is less than a page away from the last word wraps to nothing: then an empty range is handed out as
soon as the room for the alignment could be mapped.

Main statements: `Word.roundUp_eq` and `Word.roundUp_eq_error` (rounding as signed words),
`keepAligned_eq` (the room for the alignment suffices), `reserveFrom?_reserves` (what comes of any
request) and `size_lt_iff_of_reserveFrom?` (what is granted is short exactly if the request wraps).
-/

namespace MarkCompact

variable {a k m n alignment base bytes mapped size : ℕ}

/-! ## Rounding as signed words -/

namespace Word

lemma toSigned_of_lt (h : n < wordValues / 2) : toSigned n = n :=
  if_pos h

lemma toSigned_of_ge (h : wordValues / 2 ≤ n) : toSigned n = n - wordValues :=
  if_neg (not_lt.2 h)

lemma ofSigned_toSigned (h : a < wordValues) : ofSigned (toSigned a) = a := by
  rcases lt_or_ge a (wordValues / 2) with hlow | hhigh
  · rw [toSigned_of_lt hlow, ofSigned]
    simp only [wordValues] at *
    omega
  · rw [toSigned_of_ge hhigh, ofSigned]
    simp only [wordValues] at *
    omega

lemma checkSigned_eq {x : ℤ} {fault : Fault} (h1 : -(wordValues / 2 : ℤ) ≤ x)
    (h2 : x < (wordValues / 2 : ℤ)) :
    checkSigned x fault = .ok x :=
  if_pos ⟨h1, h2⟩

/-- Clearing the low bits of a word leaves a multiple of a power of two. -/
lemma and_high (hk : k ≤ 64) (h : n < 2 ^ 64) : n &&& (2 ^ 64 - 2 ^ k) = n / 2 ^ k * 2 ^ k := by
  refine Nat.eq_of_testBit_eq fun i => ?_
  have hpos := Nat.two_pow_pos k
  have hle : 2 ^ k ≤ 2 ^ 64 := Nat.pow_le_pow_right (by decide) hk
  rw [Nat.testBit_and, show 2 ^ 64 - 2 ^ k = 2 ^ 64 - (2 ^ k - 1 + 1) by omega,
    Nat.testBit_two_pow_sub_succ (by omega), Nat.testBit_two_pow_sub_one, Nat.testBit_mul_two_pow,
    Nat.testBit_div_two_pow]
  by_cases hi : k ≤ i
  · rw [Nat.sub_add_cancel hi]
    by_cases hi' : i < 64
    · simp [hi, hi']
    · rw [Nat.testBit_lt_two_pow (lt_of_lt_of_le h (Nat.pow_le_pow_right (by decide) (by omega)))]
      simp
  · have hlow : i < k := by omega
    simp [hi, hlow]

lemma two_pow_le (hk : k ≤ 62) : 2 ^ k ≤ wordValues / 4 :=
  Nat.pow_le_pow_right (n := 2) (by decide) hk

lemma roundDown_eq (hk : k ≤ 62) (x : ℤ) :
    roundDown x (2 ^ k : ℕ) = .ok (toSigned (ofSigned x / 2 ^ k * 2 ^ k)) := by
  have hpos := Nat.two_pow_pos k
  have hle := two_pow_le hk
  have hword : ofSigned x < 2 ^ 64 := by
    rw [ofSigned, wordValues]
    omega
  have hmask : ofSigned (-(2 ^ k : ℕ)) = 2 ^ 64 - 2 ^ k := by
    rw [ofSigned]
    simp only [wordValues] at *
    omega
  rw [roundDown, checkSigned_eq (by simp only [wordValues] at *; omega)
    (by simp only [wordValues] at *; omega), ok_bind, hmask, and_high (by omega) hword]
  rfl

/-- Rounding up is exact unless the sum passes the end of the signed words; past the last word it
wraps. -/
theorem roundUp_eq (hk : k ≤ 62) (ha : a < wordValues)
    (hfits : a + 2 ^ k < wordValues / 2 ∨ wordValues / 2 ≤ a) :
    roundUp (toSigned a)
      (2 ^ k : ℕ) = .ok (toSigned ((a + (2 ^ k - 1)) % wordValues / 2 ^ k * 2 ^ k)) := by
  have hpos := Nat.two_pow_pos k
  have hle := two_pow_le hk
  have hbounds : -(wordValues / 2 : ℤ) ≤ toSigned a
      ∧ toSigned a + (2 ^ k : ℕ) < (wordValues / 2 : ℤ)
      ∧ ofSigned (toSigned a + (2 ^ k : ℕ) - 1) = (a + (2 ^ k - 1)) % wordValues := by
    rcases lt_or_ge a (wordValues / 2) with hlow | hhigh
    · rw [toSigned_of_lt hlow, ofSigned]
      simp only [wordValues] at *
      omega
    · rw [toSigned_of_ge hhigh, ofSigned]
      simp only [wordValues] at *
      omega
  obtain ⟨hlower, hupper, hsum⟩ := hbounds
  rw [roundUp, checkSigned_eq (by omega) hupper, ok_bind, checkSigned_eq (by omega) (by omega),
    ok_bind, roundDown_eq hk, hsum]

/-- Otherwise the sum overflows. -/
theorem roundUp_eq_error (hle : wordValues / 2 ≤ a + 2 ^ k) (hlt : a < wordValues / 2) :
    roundUp (toSigned a) (2 ^ k : ℕ) = .error .addOverflow := by
  have hover : ¬(-(wordValues / 2 : ℤ) ≤ (a : ℤ) + (2 ^ k : ℕ)
      ∧ (a : ℤ) + (2 ^ k : ℕ) < (wordValues / 2 : ℤ)) := by
    simp only [wordValues] at *
    omega
  rw [roundUp, toSigned_of_lt hlt, checkSigned, if_neg hover]
  rfl

end Word

/-! ## Sizes -/

/-- The bytes of the pages that a request needs; it needs one at least. -/
def pagesOf (bytes : ℕ) : ℕ :=
  upTo pageBytes (max bytes 1) * pageBytes

lemma le_pagesOf (bytes : ℕ) : max bytes 1 ≤ pagesOf bytes :=
  le_upTo_mul (by decide) _

/-- The bytes that a reservation keeps: less than a page away from the last word the sum of a
request and a page wraps. -/
def keptBytes (bytes : ℕ) : ℕ :=
  if wordValues < bytes + pageBytes then 0 else pagesOf bytes

/-- The bytes that are mapped to find an aligned range of this size in them. -/
def roomFor (size alignment : ℕ) : ℕ :=
  size + (max alignment pageBytes - pageBytes)

/-- An alignment is raised to that of a page. -/
lemma max_page (k : ℕ) : max (2 ^ k) pageBytes = 2 ^ max k 12 := by
  rcases le_total k 12 with hle | hle
  · rw [max_eq_right hle]
    exact max_eq_right (Nat.pow_le_pow_right (by decide) hle)
  · rw [max_eq_left hle]
    exact max_eq_left (Nat.pow_le_pow_right (n := 2) (by decide) hle)

lemma keptBytes_of_le (h : bytes + pageBytes ≤ wordValues) : keptBytes bytes = pagesOf bytes :=
  if_neg (not_lt.2 h)

/-- The sum with a page, cut down to a word and to whole pages. -/
lemma keptBytes_eq (hbytes : bytes < wordValues) :
    (max bytes 1 + (pageBytes - 1)) % wordValues / pageBytes * pageBytes = keptBytes bytes := by
  rcases lt_or_ge wordValues (bytes + pageBytes) with hwraps | hfits
  · rw [keptBytes, if_pos hwraps]
    simp only [wordValues, pageBytes] at *
    omega
  · rw [keptBytes_of_le hfits, pagesOf, upTo, Nat.mod_eq_of_lt]
    simp only [wordValues, pageBytes] at *
    omega

lemma keptBytes_lt (hbytes : bytes < wordValues) : keptBytes bytes < wordValues := by
  rw [← keptBytes_eq hbytes]
  exact lt_of_le_of_lt (Nat.div_mul_le_self _ _) (Nat.mod_lt _ (by decide))

/-- The sizes of a reservation that can be rounded. -/
theorem reservationSizes?_eq (hbytes : bytes < wordValues)
    (hfits : max bytes 1 + pageBytes < wordValues / 2 ∨ wordValues / 2 ≤ max bytes 1) :
    reservationSizes? bytes alignment = .ok (if roomFor (keptBytes bytes) alignment < wordValues
      then some (keptBytes bytes, roomFor (keptBytes bytes) alignment) else none) := by
  have hword : max bytes 1 < wordValues := max_lt hbytes (by decide)
  have hround := Word.roundUp_eq (k := 12) (by decide) hword hfits
  rw [reservationSizes?, show (pageBytes : ℤ) = (2 ^ 12 : ℕ) from rfl, hround, ok_bind]
  rw [show 2 ^ 12 = pageBytes from rfl, keptBytes_eq hbytes,
    Word.ofSigned_toSigned (keptBytes_lt hbytes)]
  rfl

/-- Requests of about half of the words cannot be rounded. -/
theorem reservationSizes?_eq_error (hle : wordValues / 2 ≤ max bytes 1 + pageBytes)
    (hlt : max bytes 1 < wordValues / 2) :
    reservationSizes? bytes alignment = .error .addOverflow := by
  rw [reservationSizes?, show (pageBytes : ℤ) = (2 ^ 12 : ℕ) from rfl,
    Word.roundUp_eq_error (k := 12) hle hlt]
  rfl

lemma lt_of_systemMaps (h : systemMaps n = true) : n < mappingLimit := by
  simp only [systemMaps, Bool.and_eq_true, decide_eq_true_eq] at h
  exact h.2

/-- What is granted of a request that can be rounded. -/
theorem reservedBytes?_eq (hbytes : bytes < wordValues)
    (hfits : max bytes 1 + pageBytes < wordValues / 2 ∨ wordValues / 2 ≤ max bytes 1) :
    reservedBytes? bytes alignment
      = .ok (if systemMaps (roomFor (keptBytes bytes) alignment) then some (keptBytes bytes)
        else none) := by
  rw [reservedBytes?, reservationSizes?_eq hbytes hfits, ok_bind]
  by_cases hroom : roomFor (keptBytes bytes) alignment < wordValues
  · rw [if_pos hroom]
    rfl
  · have hrefused : ¬systemMaps (roomFor (keptBytes bytes) alignment) = true :=
      fun h => hroom (lt_trans (lt_of_systemMaps h) (by decide))
    rw [if_neg hroom, if_neg hrefused]
    rfl

/-! ## The aligned range -/

/-- What a system promises that maps memory: ranges of whole pages, among the addresses of a
process, which have 62 bits at most. -/
structure MapsPages (map : ℕ → Option ℕ) : Prop where
  page_dvd : ∀ n base, map n = some base → pageBytes ∣ base
  past_le : ∀ n base, map n = some base → base + n ≤ wordValues / 4

/-- The range has the size asked for, begins at a multiple of the alignment and lies in the mapped
bytes. -/
structure Extent.KeptOf (e : Extent) (base mapped size alignment : ℕ) : Prop where
  size_eq : e.size = size
  aligned : alignment ∣ e.start
  start_le : base ≤ e.start
  past_le : e.start + e.size ≤ base + mapped

/-- The first aligned address lies less than the alignment behind the base, and whole pages if both
are whole pages. -/
lemma alignedStart_bounds (hk : 12 ≤ k) (hbase : pageBytes ∣ base) :
    base ≤ upTo (2 ^ k) base * 2 ^ k ∧ upTo (2 ^ k) base * 2 ^ k + pageBytes ≤ base + 2 ^ k := by
  have hpos := Nat.two_pow_pos k
  have hbound : upTo (2 ^ k) base * 2 ^ k ≤ base + (2 ^ k - 1) := Nat.div_mul_le_self _ _
  obtain ⟨i, hi⟩ := hbase
  obtain ⟨j, hj⟩ : pageBytes ∣ 2 ^ k := Nat.pow_dvd_pow 2 (show 12 ≤ k from hk)
  obtain ⟨l, hl⟩ : pageBytes ∣ upTo (2 ^ k) base * 2 ^ k := Dvd.dvd.mul_left ⟨j, hj⟩ _
  refine ⟨le_upTo_mul hpos base, ?_⟩
  simp only [pageBytes] at *
  omega

/-- The room for the alignment suffices, since the mapped range begins at a page and the alignment
is some pages. -/
theorem keepAligned_eq (hk : 12 ≤ k) (hbase : pageBytes ∣ base)
    (hmapped : base + (size + (2 ^ k - pageBytes)) ≤ wordValues / 4) :
    ∃ e, keepAligned base (size + (2 ^ k - pageBytes)) size (2 ^ k) = .ok e
      ∧ e.KeptOf base (size + (2 ^ k - pageBytes)) size (2 ^ k) := by
  have hpage : pageBytes ≤ 2 ^ k := Nat.pow_le_pow_right (n := 2) (by decide) hk
  obtain ⟨hle, hlt⟩ := alignedStart_bounds hk hbase
  have hlog : k ≤ 62 := by
    by_contra hlarge
    have hpow : 2 ^ 63 ≤ 2 ^ k := Nat.pow_le_pow_right (by decide) (by omega)
    simp only [wordValues, pageBytes] at *
    omega
  have hround : Word.roundUp (Word.toSigned base) (Word.toSigned (2 ^ k))
      = .ok (Word.toSigned (upTo (2 ^ k) base * 2 ^ k)) := by
    have htwo := Word.two_pow_le hlog
    have hfits : base + 2 ^ k < wordValues / 2 := by
      simp only [wordValues, pageBytes] at *
      omega
    have hword : base + (2 ^ k - 1) < wordValues := by
      simp only [wordValues] at *
      omega
    rw [Word.toSigned_of_lt (n := 2 ^ k) (by omega), Word.roundUp_eq hlog (by omega) (Or.inl hfits),
      Nat.mod_eq_of_lt hword]
    rfl
  have hstop : upTo (2 ^ k) base * 2 ^ k + size ≤ base + (size + (2 ^ k - pageBytes)) := by omega
  have hend : base + (size + (2 ^ k - pageBytes)) < wordValues := lt_of_le_of_lt hmapped (by decide)
  refine ⟨⟨upTo (2 ^ k) base * 2 ^ k, size⟩, ?_, rfl, Nat.dvd_mul_left _ _, hle, hstop⟩
  rw [keepAligned, hround, ok_bind, Word.ofSigned_toSigned (by omega)]
  dsimp only
  rw [Word.sub_eq hle, ok_bind, Word.add_eq (by omega), ok_bind, Word.add_eq hend, ok_bind,
    Word.sub_eq hstop]
  rfl

/-! ## What comes of a request -/

/-- What may come of a request. -/
inductive Reserves (map : ℕ → Option ℕ) (bytes alignment : ℕ) : Except Fault (Option Extent) → Prop
  | overflows (hle : wordValues / 2 ≤ max bytes 1 + pageBytes)
      (hlt : max bytes 1 < wordValues / 2) :
    Reserves map bytes alignment (.error .addOverflow)
  | refused (h : roomFor (keptBytes bytes) alignment < wordValues →
      map (roomFor (keptBytes bytes) alignment) = none) :
    Reserves map bytes alignment (.ok none)
  | granted {base : ℕ} {e : Extent} (hmap : map (roomFor (keptBytes bytes) alignment) = some base)
    (hkept : e.KeptOf base (roomFor (keptBytes bytes) alignment) (keptBytes bytes)
      (max alignment pageBytes)) :
    Reserves map bytes alignment (.ok (some e))

/-- A request overflows, is refused, or is granted an aligned range, which is short only if the
request is less than a page away from the last word. -/
theorem reserveFrom?_reserves {map : ℕ → Option ℕ} (hmap : MapsPages map)
    (hbytes : bytes < wordValues) (k : ℕ) :
    Reserves map bytes (2 ^ k) (reserveFrom? map bytes (2 ^ k)) := by
  by_cases hover : wordValues / 2 ≤ max bytes 1 + pageBytes ∧ max bytes 1 < wordValues / 2
  case pos =>
    rw [reserveFrom?, reservationSizes?_eq_error hover.1 hover.2]
    exact .overflows hover.1 hover.2
  case neg =>
  rw [reserveFrom?, reservationSizes?_eq hbytes (by omega), ok_bind]
  have halign : max (2 ^ k) pageBytes = 2 ^ max k 12 := max_page k
  by_cases hroom : roomFor (keptBytes bytes) (2 ^ k) < wordValues
  case neg =>
    rw [if_neg hroom]
    exact .refused fun h => absurd h hroom
  case pos =>
  rw [if_pos hroom]
  dsimp only
  cases hbase : map (roomFor (keptBytes bytes) (2 ^ k)) with
  | none => exact .refused fun _ => hbase
  | some base =>
    have hpast := hmap.past_le _ _ hbase
    rw [roomFor, halign] at hpast
    obtain ⟨e, heq, hkept⟩ := keepAligned_eq (le_max_right k 12) (hmap.page_dvd _ _ hbase) hpast
    rw [← halign] at heq hkept
    dsimp only
    rw [show keptBytes bytes + (max (2 ^ k) pageBytes - pageBytes)
      = roomFor (keptBytes bytes) (2 ^ k) from rfl] at heq
    rw [heq]
    exact .granted hbase hkept

/-- What is granted is short exactly if the request is less than a page away from the last word. -/
theorem size_lt_iff_of_reserveFrom? {map : ℕ → Option ℕ} {e : Extent} (hmap : MapsPages map)
    (hbytes : bytes < wordValues) (h : reserveFrom? map bytes (2 ^ k) = .ok (some e)) :
    e.size < bytes ↔ wordValues < bytes + pageBytes := by
  have hreserves := reserveFrom?_reserves hmap hbytes k
  rw [h] at hreserves
  cases hreserves with
  | granted _ hkept =>
    rw [hkept.size_eq]
    constructor
    · intro hshort
      by_contra hfits
      rw [keptBytes_of_le (not_lt.1 hfits)] at hshort
      exact absurd hshort (not_lt.2 (le_trans (le_max_left _ _) (le_pagesOf bytes)))
    · intro hwraps
      rw [keptBytes, if_pos hwraps]
      simp only [wordValues, pageBytes] at *
      omega

/-- Fifteen pages, the room for an alignment of sixteen, are mapped for the last word that can be
asked for. -/
example : (reserveFrom? (fun _ => some 69632) 18446744073709551615 65536).toOption
    = some (some ⟨131072, 0⟩) := by
  decide +kernel

/-- The sizes that are granted do not depend on where the system maps memory. -/
theorem size_reserveFrom? {map : ℕ → Option ℕ} (hmap : MapsPages map)
    (hsystem : ∀ n, (map n).isSome = systemMaps n) (hbytes : bytes < wordValues) (k : ℕ) :
    (reserveFrom? map bytes (2 ^ k)).map (Option.map Extent.size)
      = reservedBytes? bytes (2 ^ k) := by
  by_cases hover : wordValues / 2 ≤ max bytes 1 + pageBytes ∧ max bytes 1 < wordValues / 2
  case pos =>
    rw [reserveFrom?, reservedBytes?, reservationSizes?_eq_error hover.1 hover.2]
    rfl
  case neg =>
  rw [reservedBytes?_eq hbytes (by omega)]
  have hreserves := reserveFrom?_reserves hmap hbytes k
  generalize reserveFrom? map bytes (2 ^ k) = out at hreserves
  cases hreserves with
  | overflows hle hlt => exact absurd ⟨hle, hlt⟩ hover
  | refused hnone =>
    have hrefused : ¬systemMaps (roomFor (keptBytes bytes) (2 ^ k)) = true := fun h => by
      have hword : roomFor (keptBytes bytes) (2 ^ k) < wordValues :=
        lt_trans (lt_of_systemMaps h) (by decide)
      rw [← hsystem, hnone hword] at h
      exact absurd h Bool.false_ne_true
    rw [if_neg hrefused]
    rfl
  | granted hbase hkept =>
    have hgranted : systemMaps (roomFor (keptBytes bytes) (2 ^ k)) = true := by
      rw [← hsystem, hbase]
      exact Option.isSome_some
    rw [if_pos hgranted, ← hkept.size_eq]
    rfl

end MarkCompact
