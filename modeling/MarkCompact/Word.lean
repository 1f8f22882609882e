import MarkCompact.Fault

/-!
# Machine words

Addresses, sizes and counts are natural numbers below `2 ^ 64`.  Arithmetic that could leave that
range is checked: `Word.add`, `Word.sub`, `Word.mul` and `Word.shiftLeft` either give the exact
result or a `Fault`.  Rounding to an alignment wraps instead, since masks are the way addresses are
aligned.

Main statements: `Word.add_eq_ok_iff` and `Word.sub_eq_ok_iff` say when a checked operation gives a
result, which is then the exact one, and `Word.delta_eq_ok_iff` when there is a distance.
-/

namespace MarkCompact

/-- Bytes in a machine word. -/
def bytesPerWord : Nat := 8

/-- Bits in a machine word. -/
def bitsPerWord : Nat := 64

/-- The number of values a machine word has. -/
def wordValues : Nat := 18446744073709551616

namespace Word

/-! ## Checked arithmetic -/

/-- The sum, if it is a word. -/
def add (a b : Nat) : Except Fault Nat :=
  if a + b < wordValues then .ok (a + b) else .error .addOverflow

/-- The difference, if it is not negative. -/
def sub (a b : Nat) : Except Fault Nat :=
  if b ≤ a then .ok (a - b) else .error .subOverflow

/-- The product, if it is a word. -/
def mul (a b : Nat) : Except Fault Nat :=
  if a * b < wordValues then .ok (a * b) else .error .mulOverflow

/-- Only the shift amount is checked: bits shifted out of the word are lost. -/
def shiftLeft (a k : Nat) : Except Fault Nat :=
  if k < bitsPerWord then .ok ((a <<< k) % wordValues) else .error .shiftLeftOverflow

/-- Only the shift amount is checked. -/
def shiftRight (a k : Nat) : Except Fault Nat :=
  if k < bitsPerWord then .ok (a >>> k) else .error .shiftRightOverflow

/-- The quotient; there is none by zero. -/
def div (a b : Nat) : Except Fault Nat :=
  if b = 0 then .error .divisionByZero else .ok (a / b)

/-- The bytes of `n` words.  Bits beyond the word are lost, as in a shift. -/
def bytes (n : Nat) : Nat :=
  (n * bytesPerWord) % wordValues

/-- The word of the signed value `x`, in two's complement. -/
def ofSigned (x : Int) : Nat :=
  (x % wordValues).toNat

/-- The signed value of a word, in two's complement. -/
def toSigned (a : Nat) : Int :=
  if a < wordValues / 2 then a else (a : Int) - wordValues

/-- `x`, if it is a signed word. -/
def checkSigned (x : Int) (fault : Fault) : Except Fault Int :=
  if -(wordValues / 2 : Int) ≤ x ∧ x < (wordValues / 2 : Int) then .ok x else .error fault

theorem add_eq {a b : Nat} (h : a + b < wordValues) : add a b = .ok (a + b) := by
  simp [add, h]

theorem sub_eq {a b : Nat} (h : b ≤ a) : sub a b = .ok (a - b) := by
  simp [sub, h]

theorem mul_eq {a b : Nat} (h : a * b < wordValues) : mul a b = .ok (a * b) := by
  simp [mul, h]

theorem add_eq_ok_iff {a b c : Nat} : add a b = .ok c ↔ a + b < wordValues ∧ a + b = c := by
  by_cases h : a + b < wordValues <;> simp [add, h]

theorem sub_eq_ok_iff {a b c : Nat} : sub a b = .ok c ↔ b ≤ a ∧ a - b = c := by
  by_cases h : b ≤ a <;> simp [sub, h]

/-! ## Rounding and distance -/

/-- Clears the bits of `a` that `n - 1` has; a power of two `n` rounds `a` down to a multiple. -/
def alignDown (a n : Nat) : Nat :=
  a &&& (wordValues - 1 - (n + (wordValues - 1)) % wordValues)

/-- Rounds up by adding `n - 1` first; the sum wraps. -/
def alignUp (a n : Nat) : Nat :=
  alignDown ((a + n + (wordValues - 1)) % wordValues) n

/-- Whether `a` has none of the bits of `n - 1`. -/
def isAligned (a n : Nat) : Bool :=
  a &&& ((n + (wordValues - 1)) % wordValues) == 0

/-- Rounds a signed number down to a multiple of a power of two. -/
def roundDown (x n : Int) : Except Fault Int := do
  let mask ← checkSigned (-n) .negOverflow
  pure (toSigned (ofSigned x &&& ofSigned mask))

/-- Rounds a signed number up to a multiple of a power of two. -/
def roundUp (x n : Int) : Except Fault Int := do
  let sum ← checkSigned (x + n) .addOverflow
  let last ← checkSigned (sum - 1) .subOverflow
  roundDown last n

/-- The whole words between two addresses, the larger given first. -/
def delta (left right : Nat) : Except Fault Nat :=
  if right ≤ left then .ok ((left - right) / bytesPerWord) else .error (.deltaInverted left right)

/-- The position of the highest bit. -/
def log2 (a : Nat) : Except Fault Nat :=
  if a = 0 then .error .subOverflow else .ok a.log2

theorem delta_eq {left right : Nat} (h : right ≤ left) :
    delta left right = .ok ((left - right) / bytesPerWord) := by
  simp [delta, h]

theorem delta_eq_ok_iff {left right words : Nat} :
    delta left right = .ok words ↔ right ≤ left ∧ (left - right) / bytesPerWord = words := by
  by_cases h : right ≤ left <;> simp [delta, h]

end Word

end MarkCompact
