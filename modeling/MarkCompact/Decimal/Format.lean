import MarkCompact.Decimal.Shortest

/-!
# Decimal text of doubles

Two forms: `plainDecimal` writes the shortest digits that read back, always positionally;
`fixedDecimal` writes a given number of places, rounding the exact value, a tie to the even digit.
Both write `NaN`, `inf` and `-inf` for the doubles that are no numbers.
-/

namespace MarkCompact

/-- The digits of `n`, with at least `width` of them. -/
private def paddedDigits (n width : Nat) : List Char :=
  let ds := Nat.toDigits 10 n
  List.replicate (width - ds.length) '0' ++ ds

/-- `n / 10 ^ places`, written with `places` digits behind the point and none if there are none. -/
def pointedDigits (n places : Nat) : String :=
  let ds := paddedDigits n (places + 1)
  let whole := ds.take (ds.length - places)
  let rest := ds.drop (ds.length - places)
  String.ofList (if places = 0 then whole else whole ++ '.' :: rest)

/-- A decimal in positional notation. -/
def DecimalReal.positional (d : DecimalReal) : String :=
  if 0 ≤ d.exponent then pointedDigits (d.digits * Nat.pow 10 d.exponent.toNat) 0
  else pointedDigits d.digits (-d.exponent).toNat

/-- `num / den` rounded to a natural number, a tie to the even one. -/
def roundHalfEven (num den : Nat) : Nat :=
  let lower := num / den
  let rest := num % den
  if 2 * rest < den then lower
  else if den < 2 * rest then lower + 1
  else lower + lower % 2

private def signed (negative : Bool) (text : String) : String :=
  if negative then "-" ++ text else text

/-- The shortest text that reads back, without an exponent. -/
def plainDecimal (x : Float) : String :=
  match BinaryReal.ofFloat x with
  | .notANumber => "NaN"
  | .infinite negative => signed negative "inf"
  | .finite negative m q =>
    signed negative (if m = 0 then "0" else (shortestDecimal m q).positional)

/-- The text with `places` digits behind the point. -/
def fixedDecimal (places : Nat) (x : Float) : String :=
  match BinaryReal.ofFloat x with
  | .notANumber => "NaN"
  | .infinite negative => signed negative "inf"
  | .finite negative m q =>
    let scaled := roundHalfEven (m * Nat.pow 10 places * Nat.pow 2 q.toNat) (Nat.pow 2 (-q).toNat)
    signed negative (pointedDigits scaled places)

/-- A rounded quotient is within half a unit of the exact one. -/
theorem roundHalfEven_near (num : Nat) {den : Nat} (h : 0 < den) :
    2 * (roundHalfEven num den * den) ≤ 2 * num + den
      ∧ 2 * num ≤ 2 * (roundHalfEven num den * den) + den := by
  have hdiv := Nat.div_add_mod num den
  have hlt := Nat.mod_lt num h
  have hmul : den * (num / den) = num / den * den := Nat.mul_comm ..
  unfold roundHalfEven
  simp only
  split
  · omega
  · have hsucc : (num / den + 1) * den = num / den * den + den := by
      rw [Nat.add_mul, Nat.one_mul]
    split
    · omega
    · rcases Nat.mod_two_eq_zero_or_one (num / den) with h2 | h2
      · rw [h2, Nat.add_zero]
        omega
      · rw [h2]
        omega

end MarkCompact
