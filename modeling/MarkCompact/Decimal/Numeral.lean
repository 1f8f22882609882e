/-!
# Reading numerals

A numeral is an optional sign followed by `inf`, `infinity` or `nan` in letters of either case, or
by decimal digits with at most one point, at least one digit, and optionally an exponent: `e` or
`E`, an optional sign, and digits.  Nothing else is a numeral; blanks and separators are refused.
-/

namespace MarkCompact

/-- A decimal numeral without its sign: `digits · 10 ^ exponent`. -/
structure Numeral where
  digits : Nat
  exponent : Int
  deriving DecidableEq, Repr

namespace Numeral

/-- The number a digit sequence writes; `none` if it is empty or holds anything but digits. -/
def digits? (cs : List Char) : Option Nat :=
  if cs ≠ [] ∧ cs.all Char.isDigit then
    some (cs.foldl (fun n c => 10 * n + (c.toNat - '0'.toNat)) 0)
  else none

/-- A leading sign, and what follows it. -/
def splitSign : List Char → Bool × List Char
  | '-' :: rest => (true, rest)
  | '+' :: rest => (false, rest)
  | cs => (false, cs)

/-- The exponent that a numeral writes behind its digits; nothing counts as zero. -/
def exponent? : List Char → Option Int
  | [] => some 0
  | c :: rest =>
    if c = 'e' ∨ c = 'E' then
      let (negative, ds) := splitSign rest
      (digits? ds).map fun n => if negative then -(n : Int) else n
    else none

/-- Reads digits, point and exponent. -/
def ofChars? (cs : List Char) : Option Numeral := do
  let whole := cs.takeWhile Char.isDigit
  let afterWhole := cs.dropWhile Char.isDigit
  let (places, tail) := match afterWhole with
    | '.' :: rest => (rest.takeWhile Char.isDigit, rest.dropWhile Char.isDigit)
    | _ => ([], afterWhole)
  let n ← digits? (whole ++ places)
  let e ← exponent? tail
  pure ⟨n, e - places.length⟩

/-- The double nearest to a numeral.  Exponents far beyond the range of doubles are decided by
magnitude, so that no huge power is computed. -/
def toFloat (n : Numeral) : Float :=
  let magnitude : Int := (Nat.toDigits 10 n.digits).length + n.exponent
  if n.digits = 0 ∨ magnitude < -400 then 0.0
  else if 400 < magnitude then 1.0 / 0.0
  else if 0 ≤ n.exponent then Float.ofScientific n.digits false n.exponent.toNat
  else Float.ofScientific n.digits true (-n.exponent).toNat

end Numeral

/-- The double that a numeral writes, with sign and the names of infinity and not-a-number. -/
def readDouble? (cs : List Char) : Option Float :=
  let (negative, body) := Numeral.splitSign cs
  let magnitude? : Option Float :=
    match String.ofList (body.map Char.toLower) with
    | "inf" => some (1.0 / 0.0)
    | "infinity" => some (1.0 / 0.0)
    | "nan" => some (0.0 / 0.0)
    | _ => (Numeral.ofChars? body).map Numeral.toFloat
  magnitude?.map fun x => if negative then -x else x

end MarkCompact
