import MarkCompact.Decimal.Binary

/-!
# The shortest decimal that reads back

Among the decimals that round to a given double, the ones with the fewest digits are found by
trying grids of powers of ten, coarsest first.  On each grid only the two neighbours of the value
can be the answer.  Of two neighbours that read back the nearer one is taken, and the upper one of
two that are equally near.
-/

namespace MarkCompact

/-- The decimal `digits · 10 ^ exponent`. -/
structure DecimalReal where
  digits : Nat
  exponent : Int
  deriving DecidableEq, Repr

/-- The reals that round to one double, as fractions over one denominator. -/
structure RoundingInterval where
  low : Nat
  value : Nat
  high : Nat
  denominator : Nat
  closed : Bool

namespace RoundingInterval

/-- The interval of `m · 2 ^ q`: half a unit to each side, a quarter below a power of two.  Its ends
round to even mantissas. -/
def ofBinary (m : Nat) (q : Int) : RoundingInterval :=
  let below := if m = BinaryReal.hiddenBit ∧ BinaryReal.leastExponent < q then 1 else 2
  let scale := Nat.pow 2 (q - 2).toNat
  { low := (4 * m - below) * scale
    value := 4 * m * scale
    high := (4 * m + 2) * scale
    denominator := Nat.pow 2 (2 - q).toNat
    closed := m % 2 = 0 }

/-- Whether the fraction `n / d`, both scaled like the interval's, rounds to its value. -/
def contains (r : RoundingInterval) (point scale : Nat) : Bool :=
  if r.closed then r.low * scale ≤ point && point ≤ r.high * scale
  else r.low * scale < point && point < r.high * scale

/-- The neighbour of the value on the grid of `10 ^ k` that reads back, if there is one. -/
def onGrid (r : RoundingInterval) (k : Int) : Option Nat :=
  let step := r.denominator * Nat.pow 10 k.toNat
  let scale := Nat.pow 10 (-k).toNat
  let lower := r.value * scale / step
  let rest := r.value * scale % step
  match r.contains (lower * step) scale, r.contains ((lower + 1) * step) scale with
  | true, true => some (if 2 * rest < step then lower else lower + 1)
  | true, false => some lower
  | false, true => some (lower + 1)
  | false, false => none

/-- The first of `tries` grids from `10 ^ k` downwards that holds a decimal that reads back. -/
def coarsest (r : RoundingInterval) : (tries : Nat) → (k : Int) → DecimalReal
  | 0, k => ⟨0, k⟩
  | tries + 1, k =>
    match r.onGrid k with
    | some digits => ⟨digits, k⟩
    | none => r.coarsest tries (k - 1)

end RoundingInterval

/-- The shortest decimal that reads back as the positive double `m · 2 ^ q`. -/
def shortestDecimal (m : Nat) (q : Int) : DecimalReal :=
  let r := RoundingInterval.ofBinary m q
  let start := (Nat.toDigits 10 (r.high / r.denominator)).length
  r.coarsest (start + 400) start

end MarkCompact
