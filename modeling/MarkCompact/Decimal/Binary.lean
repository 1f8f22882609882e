/-!
# Doubles as binary fractions

A finite double is a sign, a natural number `m` and an exponent `q`, and stands for `m · 2 ^ q`.
Decimal text is computed from these in exact arithmetic.
-/

namespace MarkCompact

/-- What the bits of a double say. -/
inductive BinaryReal where
  | notANumber
  | infinite (negative : Bool)
  | finite (negative : Bool) (mantissa : Nat) (exponent : Int)
  deriving DecidableEq, Repr

namespace BinaryReal

/-- The exponent of the least positive double. -/
def leastExponent : Int := -1074

/-- The mantissa of a power of two that is not subnormal. -/
def hiddenBit : Nat := 4503599627370496

/-- Reads the sign, the biased exponent and the fraction out of 64 bits. -/
def ofBits (bits : Nat) : BinaryReal :=
  let negative := bits.testBit 63
  let biased := (bits >>> 52) % 2048
  let fraction := bits % hiddenBit
  if biased = 2047 then if fraction = 0 then infinite negative else notANumber
  else if biased = 0 then finite negative fraction leastExponent
  else finite negative (hiddenBit + fraction) (leastExponent + (biased - 1))

/-- The binary fraction of a double. -/
def ofFloat (x : Float) : BinaryReal :=
  ofBits x.toBits.toNat

end BinaryReal

end MarkCompact
