import Mathlib.Data.List.Basic
import MarkCompact.Settings

/-!
# Reading sizes

A size is a numeral with a letter for its factor and a mark for bytes behind it, both of which may
be missing.  A text is kept as bytes, and what is behind the numeral is found and cut off byte by
byte.  No numeral ends with one of the letters, so there is nothing to choose.

Main statements: `cutLast_concat` and `lastByte_concat` (the end of a text), `readDouble?_ends`
(what numerals end with), `ScaledNumeral.ofChars?_eq_some_iff` (which texts are sizes) and
`ScaledNumeral.readsSize` (they are read without a fault, in one way).
-/

namespace MarkCompact

variable {cs n s b : List Char} {c : Char} {x : Float} {f : ℕ}

/-! ## Bytes of a text -/

/-- Why a text cannot be taken apart at a byte. -/
inductive Miscut where
  /-- There is no byte in front of the first one. -/
  | empty
  /-- There is no byte with this number. -/
  | pastEnd (i : ℕ)
  /-- No character begins with this byte. -/
  | insideCharacter (i : ℕ)

/-- The number of the last byte. -/
def lastIndex (text : String) : Except Miscut ℕ :=
  if 0 < text.utf8ByteSize then pure (text.utf8ByteSize - 1) else throw .empty

/-- Byte number `i`. -/
def byteAt (text : String) (i : ℕ) : Except Miscut UInt8 :=
  if h : i < text.utf8ByteSize then pure (text.getUTF8Byte ⟨i⟩ h) else throw (.pastEnd i)

/-- The bytes in front of byte number `i`, as a text. -/
def cutAt (text : String) (i : ℕ) : Except Miscut String :=
  if h : String.Pos.Raw.IsValid text ⟨i⟩ then pure (text.sliceTo (text.pos ⟨i⟩ h)).copy
    else throw (.insideCharacter i)

/-- The text without its last byte. -/
def cutLast (text : String) : Except Miscut String := do
  cutAt text (← lastIndex text)

lemma utf8ByteSize_eq_zero_iff : (String.ofList cs).utf8ByteSize = 0 ↔ cs = [] := by
  rw [String.utf8ByteSize_eq_zero_iff]
  exact ⟨fun h => String.ofList_injective h, fun h => congrArg String.ofList h⟩

lemma utf8ByteSize_concat (cs : List Char) (c : Char) :
    (String.ofList (cs ++ [c])).utf8ByteSize = (String.ofList cs).utf8ByteSize + c.utf8Size := by
  rw [String.ofList_append, String.utf8ByteSize_append, ← String.singleton_eq_ofList,
    String.utf8ByteSize_singleton]

lemma lastIndex_concat (cs : List Char) (c : Char) :
    lastIndex (String.ofList (cs ++ [c]))
      = .ok ((String.ofList cs).utf8ByteSize + c.utf8Size - 1) := by
  have hpos := c.utf8Size_pos
  rw [lastIndex, utf8ByteSize_concat, if_pos (by omega)]
  rfl

lemma cutAt_append (front back : String) :
    cutAt (front ++ back) front.utf8ByteSize = .ok front := by
  have hvalid : String.Pos.Raw.IsValid (front ++ back) ⟨front.utf8ByteSize⟩ :=
    String.Pos.Raw.isValid_iff_exists_append.2 ⟨front, back, rfl, rfl⟩
  rw [cutAt, dif_pos hvalid]
  exact congrArg Except.ok (String.copy_sliceTo_eq_iff_exists_splits.2 ⟨back, rfl, rfl⟩)

/-- A character of one byte is cut off as a whole. -/
theorem cutLast_concat (hc : c.utf8Size = 1) (cs : List Char) :
    cutLast (String.ofList (cs ++ [c])) = .ok (String.ofList cs) := by
  rw [cutLast, lastIndex_concat, hc, Nat.add_sub_cancel, String.ofList_append]
  exact cutAt_append ..

/-- The last byte of a text. -/
def lastByte (text : String) : Except Miscut UInt8 := do
  byteAt text (← lastIndex text)

lemma toByteArray_concat (hc : c.utf8Size = 1) (cs : List Char) :
    (String.ofList (cs ++ [c])).toByteArray = (String.ofList cs).toByteArray
      ++ [c.val.toUInt8].toByteArray := by
  have hbyte : [c].utf8Encode = [c.val.toUInt8].toByteArray := by
    rw [List.utf8Encode_singleton, String.utf8EncodeChar_eq_singleton hc]
  rw [String.ofList_append, String.toByteArray_append, String.toByteArray_ofList (l := [c]), hbyte]

/-- If a character begins with the last byte, it is the last one and has no other bytes. -/
lemma utf8Size_of_isValid
    (h : String.Pos.Raw.IsValid
      (String.ofList (cs ++ [c])) ⟨(String.ofList cs).utf8ByteSize + c.utf8Size - 1⟩) :
    c.utf8Size = 1 := by
  obtain ⟨front, back, happend, hindex⟩ := String.Pos.Raw.isValid_iff_exists_append.1 h
  have hfront : (String.ofList cs).utf8ByteSize + c.utf8Size - 1 = front.utf8ByteSize :=
    congrArg String.Pos.Raw.byteIdx hindex
  have hback : back.utf8ByteSize = 1 := by
    have hsize := utf8ByteSize_concat cs c
    have hpos := c.utf8Size_pos
    rw [happend, String.utf8ByteSize_append] at hsize
    omega
  rcases List.eq_nil_or_concat' back.toList with hnil | ⟨ds, d, hds⟩
  · rw [← String.ofList_toList (s := back), hnil] at hback
    exact absurd hback (by decide)
  · have hlists : cs ++ [c] = (front.toList ++ ds) ++ [d] := by
      rw [List.append_assoc, ← hds, ← String.toList_append, ← happend, String.toList_ofList]
    obtain ⟨-, rfl⟩ := List.append_singleton_inj.1 hlists
    have hpos := c.utf8Size_pos
    rw [← String.ofList_toList (s := back), hds, utf8ByteSize_concat] at hback
    omega

/-- The last byte is that of the last character, if it begins a character at all. -/
lemma lastByte_concat (cs : List Char) (c : Char) :
    ∃ u, lastByte (String.ofList (cs ++ [c])) = .ok u
    ∧ (c.utf8Size = 1 → u = c.val.toUInt8) ∧ (u.IsUTF8FirstByte → c.utf8Size = 1) := by
  have hlt : (String.ofList cs).utf8ByteSize + c.utf8Size - 1
      < (String.ofList (cs ++ [c])).utf8ByteSize := by
    have hpos := c.utf8Size_pos
    rw [utf8ByteSize_concat]
    omega
  refine ⟨(String.ofList (cs ++ [c])).getUTF8Byte ⟨(String.ofList cs).utf8ByteSize + c.utf8Size - 1⟩
    hlt, ?_, ?_, ?_⟩
  · rw [lastByte, lastIndex_concat]
    exact dif_pos hlt
  · intro hc
    simp only [String.getUTF8Byte_eq_getElem, toByteArray_concat hc, hc, Nat.add_sub_cancel]
    rw [ByteArray.getElem_append_right (Nat.le_of_eq String.size_toByteArray)]
    simp
  · intro hfirst
    exact utf8Size_of_isValid (String.Pos.Raw.isValid_iff_isUTF8FirstByte.2 (Or.inr ⟨hlt, hfirst⟩))

/-! ## Letters -/

lemma toNat_toLower (c : Char) :
    c.toLower.toNat = if 65 ≤ c.toNat ∧ c.toNat ≤ 90 then c.toNat + 32 else c.toNat := by
  have hupper : c.val ≥ 'A'.val ∧ c.val ≤ 'Z'.val ↔ 65 ≤ c.toNat ∧ c.toNat ≤ 90 := by
    simp only [ge_iff_le, UInt32.le_iff_toNat_le]
    rfl
  by_cases h : c.val ≥ 'A'.val ∧ c.val ≤ 'Z'.val
  case pos =>
    have hle := (hupper.1 h).2
    have hlower : c.toLower.toNat = (c.toNat + 32) % 4294967296 := congrArg Char.toNat (dif_pos h)
    rw [if_pos (hupper.1 h), hlower]
    omega
  case neg =>
    have hlower : c.toLower = c := dif_neg h
    rw [if_neg (mt hupper.2 h), hlower]

/-- A letter is that of either case. -/
lemma toLower_eq_iff {lower upper : Char} (hmin : 97 ≤ lower.toNat) (hmax : lower.toNat ≤ 122)
    (hupper : upper.toNat + 32 = lower.toNat) : c.toLower = lower ↔ c = lower ∨ c = upper := by
  simp only [← Char.toNat_inj, toNat_toLower]
  split
  · omega
  · omega

/-- The letters for factors. -/
inductive IsLetter : Char → ℕ → Prop
  | kilo {l : Char} (h : l = 'k' ∨ l = 'K') : IsLetter l 1024
  | mega {l : Char} (h : l = 'm' ∨ l = 'M') : IsLetter l (1024 * 1024)
  | giga {l : Char} (h : l = 'g' ∨ l = 'G') : IsLetter l (1024 * 1024 * 1024)

namespace IsLetter

/-- What holds of the letters in either case holds of all. -/
lemma holds (h : IsLetter c f) (p : Char → Prop) (hk : p 'k' ∧ p 'K') (hm : p 'm' ∧ p 'M')
    (hg : p 'g' ∧ p 'G') : p c := by
  cases h with
  | kilo h =>
    rcases h with rfl | rfl
    · exact hk.1
    · exact hk.2
  | mega h =>
    rcases h with rfl | rfl
    · exact hm.1
    · exact hm.2
  | giga h =>
    rcases h with rfl | rfl
    · exact hg.1
    · exact hg.2

lemma not_byte (h : IsLetter c f) : ¬(c = 'b' ∨ c = 'B') :=
  h.holds (fun l => ¬(l = 'b' ∨ l = 'B')) (by decide) (by decide) (by decide)

lemma utf8Size_eq (h : IsLetter c f) : c.utf8Size = 1 :=
  h.holds (·.utf8Size = 1) (by decide) (by decide) (by decide)

end IsLetter

/-- What may stand between a numeral and the mark for bytes, and the factor that it is for. -/
inductive IsSuffix : List Char → ℕ → Prop
  | none : IsSuffix [] 1
  | letter {l : Char} {factor : ℕ} (h : IsLetter l factor) : IsSuffix [l] factor

/-- What may stand at the end of a size. -/
inductive IsMark : List Char → Prop
  | none : IsMark []
  | byte {l : Char} (h : l = 'b' ∨ l = 'B') : IsMark [l]

namespace ScaledNumeral

lemma factorOf?_eq_some_iff : factorOf? c = some f ↔ IsLetter c f := by
  constructor
  · rw [factorOf?]
    split
    case h_1 h =>
      rintro ⟨⟩
      exact .kilo ((toLower_eq_iff (by decide) (by decide) (by decide)).1 h)
    case h_2 h =>
      rintro ⟨⟩
      exact .mega ((toLower_eq_iff (by decide) (by decide) (by decide)).1 h)
    case h_3 h =>
      rintro ⟨⟩
      exact .giga ((toLower_eq_iff (by decide) (by decide) (by decide)).1 h)
    case h_4 => rintro ⟨⟩
  · intro h
    cases h with
    | kilo h => rcases h with rfl | rfl <;> rfl
    | mega h => rcases h with rfl | rfl <;> rfl
    | giga h => rcases h with rfl | rfl <;> rfl

lemma dropByteMark_concat (cs : List Char) (c : Char) :
    dropByteMark (cs ++ [c]) = if cs ≠ [] ∧ (c = 'b' ∨ c = 'B') then cs else cs ++ [c] := by
  have hlower : c.toLower = 'b' ↔ c = 'b' ∨ c = 'B' :=
    toLower_eq_iff (by decide) (by decide) (by decide)
  have hlength : 1 < (cs ++ [c]).length ↔ cs ≠ [] := by
    rw [List.length_append, List.length_singleton, ← List.length_pos_iff]
    omega
  simp only [dropByteMark, List.getLast?_concat, List.dropLast_concat, hlower, hlength]

lemma splitFactor_concat (cs : List Char) (c : Char) :
    splitFactor (cs ++ [c]) = (factorOf? c).elim (cs ++ [c], 1) (Prod.mk cs) := by
  rw [splitFactor, List.getLast?_concat, Option.bind_some, List.dropLast_concat]
  cases factorOf? c <;> rfl

end ScaledNumeral

/-! ## The ends of numerals -/

/-- The last character is one of these. -/
def EndsIn (p : Char → Prop) (cs : List Char) : Prop :=
  ∃ front c, cs = front ++ [c] ∧ p c

/-- What a numeral can end with. -/
def EndsNumeral (c : Char) : Prop :=
  c.isDigit = true ∨ c = '.' ∨ c.toLower = 'f' ∨ c.toLower = 'y' ∨ c.toLower = 'n'

instance : DecidablePred EndsNumeral := fun c =>
  inferInstanceAs (Decidable
    (c.isDigit = true ∨ c = '.' ∨ c.toLower = 'f' ∨ c.toLower = 'y' ∨ c.toLower = 'n'))

lemma IsLetter.not_endsNumeral (h : IsLetter c f) : ¬EndsNumeral c :=
  h.holds (¬EndsNumeral ·) (by decide) (by decide) (by decide)

lemma EndsNumeral.not_byte (h : EndsNumeral c) : ¬(c = 'b' ∨ c = 'B') := by
  rintro (rfl | rfl)
  · exact absurd h (by decide)
  · exact absurd h (by decide)

section EndsIn

variable {p q : Char → Prop}

lemma EndsIn.mono (h : EndsIn p cs) (hpq : ∀ c, p c → q c) : EndsIn q cs := by
  obtain ⟨front, c, hcs, hc⟩ := h
  exact ⟨front, c, hcs, hpq c hc⟩

lemma EndsIn.behind (h : EndsIn p cs) (front : List Char) : EndsIn p (front ++ cs) := by
  obtain ⟨front', c, rfl, hc⟩ := h
  exact ⟨front ++ front', c, (List.append_assoc ..).symm, hc⟩

lemma endsIn_of_forall (hne : cs ≠ []) (h : ∀ c ∈ cs, p c) : EndsIn p cs :=
  ⟨cs.dropLast, cs.getLast hne, (List.dropLast_append_getLast hne).symm, h _ (List.getLast_mem hne)⟩

/-- A text that is known in small letters ends in one of two letters. -/
lemma endsIn_of_lower {front : List Char} {l : Char} (h : cs.map Char.toLower = front ++ [l]) :
    EndsIn (fun c => c.toLower = l) cs := by
  obtain ⟨front', back, rfl, -, hback⟩ := List.map_eq_append_iff.1 h
  obtain ⟨c, rfl, hc⟩ := List.map_eq_singleton_iff.1 hback
  exact ⟨front', c, rfl, hc⟩

end EndsIn

namespace Numeral

lemma splitSign_eq (cs : List Char) : ∃ sign, cs = sign ++ (splitSign cs).2 := by
  rw [splitSign.eq_def]
  split
  · exact ⟨['-'], rfl⟩
  · exact ⟨['+'], rfl⟩
  · exact ⟨[], rfl⟩

lemma digits?_eq_some {m : ℕ} (h : digits? cs = some m) : cs ≠ [] ∧ ∀ c ∈ cs, c.isDigit = true := by
  rw [digits?] at h
  split at h
  case isTrue hdigits => exact ⟨hdigits.1, List.all_eq_true.1 hdigits.2⟩
  case isFalse => cases h

lemma endsIn_of_digits? {m : ℕ} (h : digits? cs = some m) : EndsIn (·.isDigit = true) cs :=
  endsIn_of_forall (digits?_eq_some h).1 (digits?_eq_some h).2

lemma endsIn_of_exponent? {m : Int} (hne : cs ≠ []) (h : exponent? cs = some m) :
    EndsIn (·.isDigit = true) cs := by
  cases cs with
  | nil => exact absurd rfl hne
  | cons c rest =>
    rw [exponent?] at h
    split at h
    case isTrue =>
      obtain ⟨_, hnumber, -⟩ := Option.map_eq_some_iff.1 h
      obtain ⟨d, hdigits, -⟩ := Option.bind_eq_some_iff.1 hnumber
      obtain ⟨sign, hsign⟩ := splitSign_eq rest
      have hends : EndsIn (·.isDigit = true) (splitSign rest).2 := endsIn_of_digits? hdigits
      rw [hsign]
      exact hends.behind (c :: sign)
    case isFalse => cases h

/-- A number is made of digits around a point, if there is one, and an exponent, if there is one. -/
lemma ofChars?_split {m : Numeral} (h : ofChars? cs = some m) :
    ∃ whole point places tail, cs = whole ++ (point ++ (places ++ tail))
    ∧ (point = [] ∧ places = [] ∨ point = ['.']) ∧ (∃ d, digits? (whole ++ places) = some d) ∧ ∃ e,
      exponent? tail = some e := by
  have hcs : cs = cs.takeWhile Char.isDigit ++ cs.dropWhile Char.isDigit :=
    List.takeWhile_append_dropWhile.symm
  rw [ofChars?] at h
  split at h
  case h_1 places tail hsplit =>
    obtain ⟨d, hdigits, e, hexponent, -⟩ : ∃ d, digits? (cs.takeWhile Char.isDigit ++ places)
        = some d ∧ ∃ e,
        exponent? tail = some e ∧ _ := by
      simpa only [Option.bind_eq_bind, Option.bind_eq_some_iff] using h
    refine ⟨cs.takeWhile Char.isDigit, ?_⟩
    split at hsplit
    case h_1 rest hafter =>
      cases hsplit
      refine ⟨['.'], _, _, ?_, Or.inr rfl, ⟨d, hdigits⟩, e, hexponent⟩
      rw [List.takeWhile_append_dropWhile, List.singleton_append, ← hafter]
      exact hcs
    case h_2 hafter =>
      cases hsplit
      exact ⟨[], [], _, hcs, Or.inl ⟨rfl, rfl⟩, ⟨d, hdigits⟩, e, hexponent⟩

/-- A number ends with a digit or with its point. -/
lemma ofChars?_ends {m : Numeral} (h : ofChars? cs = some m) :
    EndsIn (fun c => c.isDigit = true ∨ c = '.') cs := by
  obtain ⟨whole, point, places, tail, rfl, hpoint, ⟨d, hdigits⟩, e, hexponent⟩ := ofChars?_split h
  by_cases htail : tail = []
  case neg =>
    exact ((((endsIn_of_exponent? htail hexponent).behind places).behind point).behind whole).mono
      fun _ => Or.inl
  subst htail
  rw [List.append_nil]
  rcases hpoint with ⟨rfl, rfl⟩ | rfl
  · exact (endsIn_of_digits? hdigits).mono fun _ => Or.inl
  · by_cases hplaces : places = []
    · subst hplaces
      exact ⟨whole, '.', rfl, Or.inr rfl⟩
    · have hall : ∀ c ∈ places, c.isDigit = true ∨ c = '.' := fun c hc =>
        Or.inl ((digits?_eq_some hdigits).2 c (List.mem_append_right whole hc))
      exact ((endsIn_of_forall hplaces hall).behind ['.']).behind whole

end Numeral

/-- Numerals are not empty, and no letter for a factor nor the mark for bytes is at their ends. -/
theorem readDouble?_ends (h : readDouble? cs = some x) : EndsIn EndsNumeral cs := by
  obtain ⟨sign, hsign⟩ := Numeral.splitSign_eq cs
  suffices hbody : EndsIn EndsNumeral (Numeral.splitSign cs).2 by
    rw [hsign]
    exact hbody.behind sign
  have hname : ∀ front l, String.ofList ((Numeral.splitSign cs).2.map Char.toLower)
      = String.ofList (front ++ [l]) →
      EndsIn (fun c => c.toLower = l) (Numeral.splitSign cs).2 := fun front l heq =>
    endsIn_of_lower (String.ofList_injective heq)
  rw [readDouble?] at h
  obtain ⟨_, hmagnitude, -⟩ := Option.map_eq_some_iff.1 h
  split at hmagnitude
  case h_1 heq => exact (hname ['i', 'n'] 'f' heq).mono fun _ hc => Or.inr (Or.inr (Or.inl hc))
  case h_2 heq =>
    exact (hname ['i', 'n', 'f', 'i', 'n', 'i', 't'] 'y' heq).mono fun _ hc =>
      Or.inr (Or.inr (Or.inr (Or.inl hc)))
  case h_3 heq =>
    exact (hname ['n', 'a'] 'n' heq).mono fun _ hc => Or.inr (Or.inr (Or.inr (Or.inr hc)))
  case h_4 =>
    obtain ⟨m, hm, -⟩ := Option.map_eq_some_iff.1 hmagnitude
    exact (Numeral.ofChars?_ends hm).mono fun _ hc => hc.imp_right Or.inl

/-! ## Sizes -/

/-- A text is written as a numeral for `x`, what stands for the factor `f`, and what stands for
bytes. -/
structure Spells (cs n s b : List Char) (x : Float) (f : ℕ) : Prop where
  split : cs = n ++ s ++ b
  numeral : readDouble? n = some x
  suffix : IsSuffix s f
  mark : IsMark b

namespace ScaledNumeral

lemma exists_mark (cs : List Char) : ∃ b, cs = dropByteMark cs ++ b ∧ IsMark b := by
  rcases List.eq_nil_or_concat' cs with rfl | ⟨front, c, rfl⟩
  · exact ⟨[], rfl, .none⟩
  · rw [dropByteMark_concat]
    split
    case isTrue h => exact ⟨[c], rfl, .byte h.2⟩
    case isFalse => exact ⟨[], (List.append_nil _).symm, .none⟩

lemma exists_suffix (cs : List Char) :
    ∃ s, cs = (splitFactor cs).1 ++ s ∧ IsSuffix s (splitFactor cs).2 := by
  rcases List.eq_nil_or_concat' cs with rfl | ⟨front, c, rfl⟩
  · exact ⟨[], rfl, .none⟩
  · rw [splitFactor_concat]
    cases hfactor : factorOf? c with
    | some factor => exact ⟨[c], rfl, .letter (factorOf?_eq_some_iff.1 hfactor)⟩
    | none => exact ⟨[], (List.append_nil _).symm, .none⟩

/-- The suffix of a numeral is recognized. -/
lemma splitFactor_append (hn : EndsIn EndsNumeral n) (hs : IsSuffix s f) :
    splitFactor (n ++ s) = (n, f) := by
  cases hs with
  | none =>
    obtain ⟨front, c, rfl, hc⟩ := hn
    have hfactor : factorOf? c = none := Option.eq_none_iff_forall_ne_some.2 fun factor heq =>
      (factorOf?_eq_some_iff.1 heq).not_endsNumeral hc
    rw [List.append_nil, splitFactor_concat, hfactor]
    rfl
  | letter h =>
    rw [splitFactor_concat, factorOf?_eq_some_iff.2 h]
    rfl

/-- The mark for bytes behind a numeral and its suffix is recognized. -/
lemma dropByteMark_append (hn : EndsIn EndsNumeral n) (hs : IsSuffix s f) (hb : IsMark b) :
    dropByteMark (n ++ s ++ b) = n ++ s := by
  have hends : EndsIn (fun c => ¬(c = 'b' ∨ c = 'B')) (n ++ s) := by
    cases hs with
    | none =>
      rw [List.append_nil]
      exact hn.mono fun _ => EndsNumeral.not_byte
    | letter h => exact ⟨n, _, rfl, h.not_byte⟩
  obtain ⟨front, c, hfront, hc⟩ := hends
  cases hb with
  | none => rw [List.append_nil, hfront, dropByteMark_concat, if_neg fun h => hc h.2]
  | byte h => rw [dropByteMark_concat, if_pos ⟨by simp [hfront], h⟩]

/-- What is read is what is written. -/
theorem ofChars?_eq_some_iff :
    ofChars? cs = some ⟨x, f⟩ ↔ ∃ n s b, Spells (trimBlank cs) n s b x f := by
  constructor
  · intro h
    obtain ⟨b, hmark, hb⟩ := exists_mark (trimBlank cs)
    obtain ⟨s, hsuffix, hs⟩ := exists_suffix (dropByteMark (trimBlank cs))
    rw [ofChars?] at h
    generalize splitFactor (dropByteMark (trimBlank cs)) = parts at h hsuffix hs
    obtain ⟨_, hx, ⟨⟩⟩ := Option.map_eq_some_iff.1 h
    rw [hsuffix] at hmark
    exact ⟨parts.1, s, b, hmark, hx, hs, hb⟩
  · rintro ⟨n, s, b, h⟩
    have hn := readDouble?_ends h.numeral
    rw [ofChars?, h.split, dropByteMark_append hn h.suffix h.mark, splitFactor_append hn h.suffix]
    exact Option.map_eq_some_iff.2 ⟨x, h.numeral, rfl⟩

end ScaledNumeral

/-- A text is written in one way. -/
theorem Spells.unique {n' s' b' : List Char} {x' : Float} {f' : ℕ} (h : Spells cs n s b x f)
    (h' : Spells cs n' s' b' x' f') :
    n = n' ∧ s = s' ∧ b = b' ∧ x = x' ∧ f = f' := by
  have hn := readDouble?_ends h.numeral
  have hn' := readDouble?_ends h'.numeral
  have hcs : n ++ s ++ b = n' ++ s' ++ b' := h.split.symm.trans h'.split
  have hfront : n ++ s = n' ++ s' := by
    rw [← ScaledNumeral.dropByteMark_append hn h.suffix h.mark, hcs,
      ScaledNumeral.dropByteMark_append hn' h'.suffix h'.mark]
  have hpair : (n, f) = (n', f') := by
    rw [← ScaledNumeral.splitFactor_append hn h.suffix, hfront,
      ScaledNumeral.splitFactor_append hn' h'.suffix]
  obtain ⟨rfl, rfl⟩ := Prod.mk.inj hpair
  rw [hfront] at hcs
  exact ⟨rfl, List.append_cancel_left hfront, List.append_cancel_left hcs,
    Option.some.inj (h.numeral.symm.trans h'.numeral), rfl⟩

/-! ## Byte by byte -/

namespace ScaledNumeral

/-- The factor that the byte of a letter stands for. -/
def factorOfByte? (u : UInt8) : Option ℕ :=
  if u = 'g'.toUInt8 ∨ u = 'G'.toUInt8 then some (1024 * 1024 * 1024)
  else if u = 'm'.toUInt8 ∨ u = 'M'.toUInt8 then some (1024 * 1024)
  else if u = 'k'.toUInt8 ∨ u = 'K'.toUInt8 then some 1024
  else none

/-- Cuts the mark for bytes off a text of more than one byte. -/
def cutByteMark (text : String) : Except Miscut String :=
  if 1 < text.utf8ByteSize ∧ (text.toList.getLast? = some 'b' ∨ text.toList.getLast? = some 'B')
    then cutLast text
  else pure text

/-- Cuts the letter for a factor off. -/
def cutFactor (text : String) : Except Miscut (String × ℕ) := do
  match factorOfByte? (← lastByte text) with
  | some factor => do pure (← cutLast text, factor)
  | none => pure (text, 1)

/-- Reads a size from the bytes of a text. -/
def ofText? (text : String) : Except Miscut (Option ScaledNumeral) := do
  let value := String.ofList (trimBlank text.toList)
  if value.isEmpty then pure none
  else
    let (digits, factor) ← cutFactor (← cutByteMark value)
    pure ((readDouble? digits.toList).map fun x => ⟨x, factor⟩)

/-- The last byte is that of a letter exactly if the last character is the letter. -/
lemma factorOfByte?_eq {u : UInt8} (hone : c.utf8Size = 1 → u = c.val.toUInt8)
    (hfirst : u.IsUTF8FirstByte → c.utf8Size = 1) :
    factorOfByte? u = factorOf? c := by
  -- The byte of a letter begins a character, so it is all of the last one.
  have hletter : ∀ l : Char, l.toNat < 128 → l.toUInt8.IsUTF8FirstByte → u = l.toUInt8 → c = l := by
    rintro l hl hbyte rfl
    have hsize := hfirst hbyte
    have hc : c.toNat < 128 :=
      Nat.lt_succ_of_le (UInt32.le_iff_toNat_le.1 (Char.utf8Size_eq_one_iff.1 hsize))
    have heq : l.toNat % 256 = c.toNat % 256 := congrArg UInt8.toNat (hone hsize)
    exact Char.toNat_inj.1 (by omega)
  refine Option.ext fun f => ?_
  rw [factorOf?_eq_some_iff]
  constructor
  · rw [factorOfByte?]
    split
    case isTrue h =>
      rintro ⟨⟩
      exact .giga (h.imp (hletter 'g' (by decide) (by decide))
        (hletter 'G' (by decide) (by decide)))
    case isFalse =>
    split
    case isTrue h =>
      rintro ⟨⟩
      exact .mega (h.imp (hletter 'm' (by decide) (by decide))
        (hletter 'M' (by decide) (by decide)))
    case isFalse =>
    split
    case isTrue h =>
      rintro ⟨⟩
      exact .kilo (h.imp (hletter 'k' (by decide) (by decide))
        (hletter 'K' (by decide) (by decide)))
    case isFalse => rintro ⟨⟩
  · rintro (h | h | h)
    · rcases h with rfl | rfl <;> rw [hone (by decide)] <;> rfl
    · rcases h with rfl | rfl <;> rw [hone (by decide)] <;> rfl
    · rcases h with rfl | rfl <;> rw [hone (by decide)] <;> rfl

lemma cutByteMark_eq (cs : List Char) :
    cutByteMark (String.ofList cs) = .ok (String.ofList (dropByteMark cs)) := by
  rcases List.eq_nil_or_concat' cs with rfl | ⟨front, c, rfl⟩
  · rfl
  rw [cutByteMark, dropByteMark_concat, String.toList_ofList, List.getLast?_concat,
    utf8ByteSize_concat]
  simp only [Option.some.injEq]
  by_cases hc : c = 'b' ∨ c = 'B'
  case neg =>
    rw [if_neg fun h => hc h.2, if_neg fun h => hc h.2]
    rfl
  case pos =>
    have hsize : c.utf8Size = 1 := by
      rcases hc with rfl | rfl <;> rfl
    have hfront : 1 < (String.ofList front).utf8ByteSize + c.utf8Size ↔ front ≠ [] := by
      rw [hsize, ne_eq, ← utf8ByteSize_eq_zero_iff]
      omega
    simp only [hfront, hc, and_true]
    split
    case isTrue => exact cutLast_concat hsize front
    case isFalse => rfl

lemma cutFactor_eq (hne : cs ≠ []) :
    cutFactor (String.ofList cs) = .ok (String.ofList (splitFactor cs).1, (splitFactor cs).2) := by
  rcases List.eq_nil_or_concat' cs with rfl | ⟨front, c, rfl⟩
  · exact absurd rfl hne
  obtain ⟨u, hlast, hone, hfirst⟩ := lastByte_concat front c
  refine bind_eq_ok_iff.2 ⟨u, hlast, ?_⟩
  rw [factorOfByte?_eq hone hfirst, splitFactor_concat]
  cases hfactor : factorOf? c with
  | some factor =>
    have hsize : c.utf8Size = 1 := (factorOf?_eq_some_iff.1 hfactor).utf8Size_eq
    exact bind_eq_ok_iff.2 ⟨_, cutLast_concat hsize front, rfl⟩
  | none => rfl

lemma dropByteMark_ne_nil (hne : cs ≠ []) : dropByteMark cs ≠ [] := by
  rcases List.eq_nil_or_concat' cs with rfl | ⟨front, c, rfl⟩
  · exact absurd rfl hne
  · rw [dropByteMark_concat]
    split
    case isTrue h => exact h.1
    case isFalse => exact hne

/-- Taking a text apart byte by byte never fails. -/
theorem ofText?_eq (text : String) : ofText? text = .ok (ofChars? text.toList) := by
  rw [ofText?, ofChars?]
  by_cases hnil : trimBlank text.toList = []
  case pos =>
    rw [hnil]
    rfl
  case neg =>
    have hempty : ¬(String.ofList (trimBlank text.toList)).isEmpty = true := by
      rw [String.isEmpty_iff_utf8ByteSize_eq_zero, utf8ByteSize_eq_zero_iff]
      exact hnil
    rw [if_neg hempty]
    refine bind_eq_ok_iff.2 ⟨_, cutByteMark_eq _,
      bind_eq_ok_iff.2 ⟨_, cutFactor_eq (dropByteMark_ne_nil hnil), ?_⟩⟩
    simp only [String.toList_ofList]
    rfl

/-- A text is taken apart without a fault, into a numeral, a suffix and a mark for bytes if it is
made of them and in the one way that it is, and it is refused otherwise. -/
structure ReadsSize (text : String) : Prop where
  no_fault : ofText? text = .ok (ofChars? text.toList)
  some_iff : ∀ x f, ofChars? text.toList = some ⟨x, f⟩
    ↔ ∃ n s b, Spells (trimBlank text.toList) n s b x f
  none_iff : ofChars? text.toList = none ↔ ∀ n s b x f, ¬Spells (trimBlank text.toList) n s b x f
  unique : ∀ n s b x f n' s' b' x' f', Spells (trimBlank text.toList) n s b x f →
    Spells (trimBlank text.toList) n' s' b' x' f' → n = n' ∧ s = s' ∧ b = b' ∧ x = x' ∧ f = f'

theorem readsSize (text : String) : ReadsSize text where
  no_fault := ofText?_eq text
  some_iff _ _ := ofChars?_eq_some_iff
  none_iff := by
    rw [Option.eq_none_iff_forall_ne_some]
    constructor
    · intro h n s b x f hspells
      exact h ⟨x, f⟩ (ofChars?_eq_some_iff.2 ⟨n, s, b, hspells⟩)
    · rintro h ⟨x, f⟩ heq
      obtain ⟨n, s, b, hspells⟩ := ofChars?_eq_some_iff.1 heq
      exact h n s b x f hspells
  unique _ _ _ _ _ _ _ _ _ _ h h' := h.unique h'

example : ∀ text ∈ ["", "b", "kb", "4kk", "1 2", "2é"], (ofChars? text.toList).isNone = true := by
  decide +kernel

end ScaledNumeral

end MarkCompact
