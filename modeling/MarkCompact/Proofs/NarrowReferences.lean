import MarkCompact.Proofs.Addresses
import MarkCompact.Reference

/-!
# Narrow references

A codec reads thirty-two bits as an address above its base.  Shifting loses bits and zero is
reserved, so it has to be shown that no address is taken for another: an address is encoded only if
there is a narrow reference that stands for it, and there never are two.

Main statements: `Codec.encode_encodes` (what comes of encoding an address),
`Codec.encode_eq_ok_iff` and `Codec.decode_eq_ok_iff` (the two directions agree) and
`Codec.faithful` (the codec is a bijection on its range).
-/

namespace MarkCompact.Codec

variable {c : Codec} {addr raw raw' : ℕ}

/-- The address that a narrow reference stands for. -/
def target (c : Codec) (raw : ℕ) : ℕ :=
  if raw = 0 then 0 else c.base + raw * 2 ^ c.shift

lemma target_of_ne (h : raw ≠ 0) : c.target raw = c.base + raw * 2 ^ c.shift := if_neg h

lemma base_lt_target (h : raw ≠ 0) : c.base < c.target raw := by
  rw [target_of_ne h]
  exact Nat.lt_add_of_pos_right (Nat.mul_pos (Nat.pos_of_ne_zero h) (Nat.two_pow_pos _))

lemma target_eq_zero_iff : c.target raw = 0 ↔ raw = 0 := by
  constructor
  · intro h
    by_contra hne
    have := base_lt_target (c := c) hne
    omega
  · rintro rfl
    rfl

/-- An address above the base tells the narrow reference that stands for it. -/
lemma units_eq (h : raw ≠ 0) : (c.target raw - c.base) / 2 ^ c.shift = raw := by
  rw [target_of_ne h, Nat.add_sub_cancel_left, Nat.mul_div_cancel _ (Nat.two_pow_pos _)]

lemma target_injective (h : c.target raw = c.target raw') : raw = raw' := by
  by_cases h0 : raw = 0
  · subst h0
    exact (target_eq_zero_iff.1 h.symm).symm
  · have h0' : raw' ≠ 0 :=
      fun hzero => h0 (target_eq_zero_iff.1 (h.trans (target_eq_zero_iff.2 hzero)))
    rw [← units_eq (c := c) h0, h, units_eq h0']

/-- An address above the base has a narrow reference exactly if it lies whole units above, and not
too many of them. -/
lemma exists_target_iff (h : c.base < addr) :
    (∃ raw < narrowValues, addr = c.target raw)
      ↔ 2 ^ c.shift ∣ addr - c.base ∧ (addr - c.base) / 2 ^ c.shift < narrowValues := by
  constructor
  · rintro ⟨raw, hraw, rfl⟩
    have h0 : raw ≠ 0 := by
      rintro rfl
      exact absurd h (Nat.not_lt_zero _)
    refine ⟨?_, (units_eq h0).symm ▸ hraw⟩
    rw [target_of_ne h0, Nat.add_sub_cancel_left]
    exact Nat.dvd_mul_left _ _
  · rintro ⟨⟨raw, hdiff⟩, hlt⟩
    rw [hdiff, Nat.mul_div_cancel_left _ (Nat.two_pow_pos _)] at hlt
    have h0 : raw ≠ 0 := by
      rintro rfl
      omega
    refine ⟨raw, hlt, ?_⟩
    rw [target_of_ne h0, Nat.mul_comm, ← hdiff]
    omega

/-! ## Both directions -/

/-- What may come of encoding an address. -/
inductive Encodes (c : Codec) (addr : ℕ) : Except Fault ℕ → Prop
  | narrow {raw : ℕ} (hraw : raw < narrowValues) (haddr : addr = c.target raw) :
      Encodes c addr (.ok raw)
  | below (hne : addr ≠ 0) (hle : addr ≤ c.base) :
      Encodes c addr (.error (.belowNarrowBase addr c.base))
  | between (habove : c.base < addr) (hnone : ∀ raw < narrowValues, addr ≠ c.target raw) :
    Encodes c addr (.error (.notEncodable addr))

/-- An address is encoded as the reference that stands for it, or there is none. -/
theorem encode_encodes (hshift : c.shift < bitsPerWord) (addr : ℕ) :
    c.Encodes addr (c.encode addr) := by
  rw [encode]
  split
  case isTrue hzero =>
    have hnull : 0 < narrowValues := by decide
    exact .narrow hnull hzero
  case isFalse hne =>
  split
  case isTrue hle => exact .below hne hle
  case isFalse habove =>
  have habove : c.base < addr := not_le.1 habove
  rw [Word.shiftRight, if_pos hshift, ok_bind, Nat.shiftRight_eq_div_pow, Nat.shiftLeft_eq]
  split
  case isTrue hunits =>
    obtain ⟨hlt, hback⟩ := hunits
    refine .narrow hlt ?_
    rw [target_of_ne, hback]
    · omega
    · intro hzero
      rw [hzero] at hback
      omega
  case isFalse hunits =>
    -- Units that do not give the address back mean that it is no whole number of them.
    refine .between habove fun raw hraw haddr => hunits ?_
    obtain ⟨hdvd, hlt⟩ := (exists_target_iff habove).1 ⟨raw, hraw, haddr⟩
    exact ⟨hlt, Nat.div_mul_cancel hdvd⟩

theorem encode_eq_ok_iff (hshift : c.shift < bitsPerWord) :
    c.encode addr = .ok raw ↔ raw < narrowValues ∧ addr = c.target raw := by
  have hencodes := encode_encodes hshift addr
  generalize c.encode addr = out at hencodes
  constructor
  · rintro rfl
    cases hencodes with
    | narrow hraw haddr => exact ⟨hraw, haddr⟩
  · rintro ⟨hraw, haddr⟩
    cases hencodes with
    | narrow _ haddr' => rw [target_injective (haddr'.symm.trans haddr)]
    | below hne hle =>
      have h0 : raw ≠ 0 := fun hzero => hne (haddr.trans (target_eq_zero_iff.2 hzero))
      exact absurd (base_lt_target h0) (not_lt.2 (haddr ▸ hle))
    | between _ hnone => exact absurd haddr (hnone raw hraw)

/-- A narrow reference is read as the address that it stands for, if that is a word. -/
theorem decode_eq (hshift : c.shift < bitsPerWord) (hword : c.target raw < wordValues) :
    c.decode raw = .ok (c.target raw) := by
  rw [decode]
  split
  case isTrue hzero =>
    subst hzero
    rfl
  case isFalse hne =>
    rw [target_of_ne hne] at hword ⊢
    have hoffset : raw * 2 ^ c.shift < wordValues := lt_of_le_of_lt (Nat.le_add_left _ _) hword
    rw [Word.shiftLeft, if_pos hshift, ok_bind, Nat.shiftLeft_eq, Nat.mod_eq_of_lt hoffset,
      Word.add_eq hword]

/-- While a shifted narrow reference is a word, nothing else is ever read. -/
theorem decode_eq_ok_iff (hshift : c.shift ≤ 32) (hraw : raw < narrowValues) :
    c.decode raw = .ok addr ↔ c.target raw < wordValues ∧ addr = c.target raw := by
  have hword : c.shift < bitsPerWord := lt_of_le_of_lt hshift (by decide)
  constructor
  · intro h
    by_cases hlt : c.target raw < wordValues
    · rw [decode_eq hword hlt, Except.ok.injEq] at h
      exact ⟨hlt, h.symm⟩
    · have hne : raw ≠ 0 := by
        rintro rfl
        exact hlt (show 0 < wordValues by decide)
      have hoffset : raw * 2 ^ c.shift < wordValues := calc
        raw * 2 ^ c.shift < narrowValues * 2 ^ c.shift :=
          Nat.mul_lt_mul_of_pos_right hraw (Nat.two_pow_pos _)
        _ ≤ narrowValues * 2 ^ 32 := Nat.mul_le_mul_left _ (Nat.pow_le_pow_right (by decide) hshift)
        _ = wordValues := rfl
      rw [decode, if_neg hne, Word.shiftLeft, if_pos hword, ok_bind, Nat.shiftLeft_eq,
        Nat.mod_eq_of_lt hoffset] at h
      rw [target_of_ne hne] at hlt
      exact absurd (Word.add_eq_ok_iff.1 h).1 hlt
  · rintro ⟨hlt, rfl⟩
    exact decode_eq hword hlt

/-! ## A bijection -/

/-- The codec is a bijection between narrow references and the addresses that it encodes, and it
refuses the others. -/
structure Faithful (c : Codec) : Prop where
  encode_null : c.encode 0 = .ok 0
  decode_encode : ∀ addr raw, addr < wordValues → c.encode addr = .ok raw →
    raw < narrowValues ∧ (raw = 0 ↔ addr = 0) ∧ c.decode raw = .ok addr
  encode_injective : ∀ addr addr' raw, c.encode addr = .ok raw → c.encode addr' = .ok raw →
    addr = addr'
  encode_decode : ∀ raw < narrowValues, c.base + raw * 2 ^ c.shift < wordValues →
    ∃ addr, c.decode raw = .ok addr ∧ (raw = 0 ↔ addr = 0) ∧ c.encode addr = .ok raw
  accepts : ∀ addr, c.base < addr → 2 ^ c.shift ∣ addr - c.base →
    (addr - c.base) / 2 ^ c.shift < narrowValues →
    c.encode addr = .ok ((addr - c.base) / 2 ^ c.shift)
  refuses_below : ∀ addr, addr ≠ 0 → addr ≤ c.base →
    c.encode addr = .error (.belowNarrowBase addr c.base)
  refuses_between : ∀ addr, c.base < addr → ¬(2 ^ c.shift ∣ addr - c.base)
    ∨ narrowValues ≤ (addr - c.base) / 2 ^ c.shift →
    c.encode addr = .error (.notEncodable addr)

theorem faithful (c : Codec) (hshift : c.shift < bitsPerWord) : c.Faithful where
  encode_null := rfl
  decode_encode addr raw hword h := by
    obtain ⟨hraw, rfl⟩ := (encode_eq_ok_iff hshift).1 h
    exact ⟨hraw, target_eq_zero_iff.symm, decode_eq hshift hword⟩
  encode_injective addr addr' raw h h' :=
    ((encode_eq_ok_iff hshift).1 h).2.trans ((encode_eq_ok_iff hshift).1 h').2.symm
  encode_decode raw hraw hword := by
    have htarget : c.target raw < wordValues := by
      rw [target]
      split
      · decide
      · exact hword
    exact ⟨_, decode_eq hshift htarget, target_eq_zero_iff.symm,
      (encode_eq_ok_iff hshift).2 ⟨hraw, rfl⟩⟩
  accepts addr habove hdvd hlt := by
    obtain ⟨raw, hraw, rfl⟩ := (exists_target_iff habove).2 ⟨hdvd, hlt⟩
    have hne : raw ≠ 0 := by
      rintro rfl
      exact absurd habove (Nat.not_lt_zero _)
    rw [units_eq hne]
    exact (encode_eq_ok_iff hshift).2 ⟨hraw, rfl⟩
  refuses_below addr hne hle := by
    rw [encode, if_neg hne, if_pos hle]
    rfl
  refuses_between addr habove hmiss := by
    have hencodes := encode_encodes hshift addr
    generalize c.encode addr = out at hencodes
    cases hencodes with
    | narrow hraw haddr =>
      obtain ⟨hdvd, hlt⟩ := (exists_target_iff habove).1 ⟨_, hraw, haddr⟩
      exact absurd hmiss (not_or.2 ⟨not_not.2 hdvd, not_le.2 hlt⟩)
    | below _ hle => exact absurd habove (not_lt.2 hle)
    | between _ _ => rfl

/-- Words of a heap that begins at byte 64. -/
theorem faithful_words : Faithful ⟨56, 3⟩ :=
  faithful ⟨56, 3⟩ (by decide)

end MarkCompact.Codec
