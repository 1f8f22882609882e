import MarkCompact.Settings

/-!
# The dead wood limit

A dense prefix may keep some dead space.  How much follows a normal distribution over how full the
space is, shifted so that a completely full space gets exactly its minimum.
-/

namespace MarkCompact

/-- The double nearest to a word. -/
def wordToFloat (n : Nat) : Float :=
  n.toUInt64.toFloat

/-- The ratio of a circle's circumference to its diameter. -/
def circleConstant : Float := 3.141592653589793

/-- A normal distribution over the density of a space. -/
structure Limiter where
  mean : Float
  deviation : Float
  peak : Float
  adjustment : Float

namespace Limiter

/-- The value of the distribution at a density. -/
def normalAt (l : Limiter) (density : Float) : Float :=
  let distance := (density - l.mean) / l.deviation
  l.peak * (-0.5 * distance * distance).exp

/-- The limiter for a mean and a standard deviation in percent, both at most one hundred. -/
def ofPercent (mean deviation : Nat) : Limiter :=
  let meanRatio := wordToFloat (min mean 100) / 100.0
  let deviationRatio := wordToFloat (min (max deviation 1) 100) / 100.0
  let l : Limiter :=
    { mean := meanRatio
      deviation := deviationRatio
      peak := 1.0 / ((2.0 * circleConstant).sqrt * deviationRatio)
      adjustment := 0.0 }
  { l with adjustment := l.normalAt 1.0 }

/-- Allowed dead wood as a fraction of the capacity: `minimum` percent at density one, and never
negative. -/
def limit (l : Limiter) (density : Float) (minimum : Nat) : Float :=
  let raw := l.normalAt density - l.adjustment + wordToFloat minimum / 100.0
  if raw > 0.0 then raw else 0.0

end Limiter

end MarkCompact
