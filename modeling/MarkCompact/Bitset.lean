import MarkCompact.Fault
import MarkCompact.Table

/-!
# Sets of bits in words

A `Bitset` keeps `size` bits, sixty-four to a word.  Searches go word by word: the first word is cut
at the bit where the search starts, the last at the bit where it stops, and whole words between them
are skipped when they are zero.

The view is membership, `b.mem i`.  The operations without a check (`set`, `firstIn`, `lastIn`,
`clear`) expect indices below `size`; `read`, `firstIn?`, `lastIn?` and `clear?` check first and
raise a `Fault`.
-/

namespace MarkCompact

/-! ## Bits of one word -/

/-- The number of trailing zeros of `w`, at most `limit`. -/
def trailingZeros : (limit w : Nat) → Nat
  | 0, _ => 0
  | limit + 1, w => if w % 2 = 1 then 0 else trailingZeros limit (w / 2) + 1

/-- `w` without its bits from `start` up to, not including, `stop`. -/
def clearBits (w start stop : Nat) : Nat :=
  w % (1 <<< start) + (w >>> stop) <<< stop

/-! ## The set -/

/-- A set of bits below `size`, as a table of words. -/
structure Bitset where
  size : Nat
  words : Table Nat

namespace Bitset

/-- The words that `size` bits take. -/
def wordCount (size : Nat) : Nat :=
  (size + 63) / 64

/-- The empty set of bits below `size`. -/
def empty (size : Nat) : Bitset :=
  ⟨size, .fresh (wordCount size) 0⟩

/-- Whether bit `i` is set. -/
def mem (b : Bitset) (i : Nat) : Bool :=
  (b.words.get (i / 64)).testBit (i % 64)

/-- Sets bit `i`. -/
def set (b : Bitset) (i : Nat) : Bitset :=
  { b with words := b.words.modify (i / 64) fun w => w ||| 1 <<< (i % 64) }

/-- The first bit set in the `count` words from word `index` on. -/
def firstFromWord (b : Bitset) : (count index : Nat) → Option Nat
  | 0, _ => none
  | count + 1, index =>
    let w := b.words.get index
    if w = 0 then b.firstFromWord count (index + 1) else some (64 * index + trailingZeros 64 w)

/-- The first bit set from `start` up to, not including, `stop`; `stop` if there is none. -/
def firstIn (b : Bitset) (start stop : Nat) : Nat :=
  if stop ≤ start then stop
  else
    let index := start / 64
    let w := b.words.get index >>> (start % 64)
    let found :=
      if w = 0 then b.firstFromWord ((stop + 63) / 64 - (index + 1)) (index + 1)
      else some (start + trailingZeros 64 w)
    match found with
    | some i => min i stop
    | none => stop

/-- The last bit set in the `count` words before word `index`. -/
def lastBeforeWord (b : Bitset) : (count index : Nat) → Option Nat
  | 0, _ => none
  | count + 1, index =>
    let w := b.words.get (index - 1)
    if w = 0 then b.lastBeforeWord count (index - 1) else some (64 * (index - 1) + w.log2)

/-- The last bit set from `start` up to, not including, `stop`, if there is one. -/
def lastIn (b : Bitset) (start stop : Nat) : Option Nat :=
  if stop ≤ start then none
  else
    let last := stop - 1
    let index := last / 64
    let w := b.words.get index % (1 <<< (last % 64 + 1))
    let found :=
      if w = 0 then b.lastBeforeWord (index - start / 64) index else some (64 * index + w.log2)
    found.filter (start ≤ ·)

/-- Clears the bits from `start` up to, not including, `stop`. -/
def clear (b : Bitset) (start stop : Nat) : Bitset :=
  if stop ≤ start then b
  else
    let first := start / 64
    let last := (stop - 1) / 64
    if first = last then
      { b with
        words := b.words.modify first fun w => clearBits w (start % 64) ((stop - 1) % 64 + 1) }
    else
      let inner := b.words.clear (first + 1) last
      let headless := inner.modify first fun w => clearBits w (start % 64) 64
      { b with words := headless.modify last fun w => clearBits w 0 ((stop - 1) % 64 + 1) }

/-- Adds the bits set from `start` on, found by at most `tries` searches, to a list in descending
order. -/
def collectFrom (b : Bitset) : (tries start : Nat) → (seen : List Nat) → List Nat
  | 0, _, seen => seen
  | tries + 1, start, seen =>
    let i := b.firstIn start b.size
    if i < b.size then b.collectFrom tries (i + 1) (i :: seen) else seen

/-- The bits set, ascending. -/
def toList (b : Bitset) : List Nat :=
  (b.collectFrom b.size 0 []).reverse

/-! ## Checked operations -/

/-- Whether bit `i`, which must be below the size, is set. -/
def read (b : Bitset) (i : Nat) : Except Fault Bool :=
  if i < b.size then pure (b.mem i) else throw (.bitOutOfBounds i b.size)

/-- Sets bit `i`, and tells whether that changed it. -/
def insert (b : Bitset) (i : Nat) : Except Fault (Bool × Bitset) :=
  if i < b.size then pure (if b.mem i then (false, b) else (true, b.set i))
  else throw (.bitOutOfBounds i b.size)

/-- A range of bits must not be inverted and must end within the set. -/
def checkRange (b : Bitset) (start stop : Nat) : Except Fault Unit :=
  if stop < start then throw (.bitRangeInverted start stop)
  else if b.size < stop then throw (.bitLimitOutOfBounds stop b.size)
  else pure ()

/-- `firstIn`, for a range that is checked first. -/
def firstIn? (b : Bitset) (start stop : Nat) : Except Fault Nat := do
  b.checkRange start stop
  pure (b.firstIn start stop)

/-- `lastIn`, for a range that is checked first. -/
def lastIn? (b : Bitset) (start stop : Nat) : Except Fault (Option Nat) := do
  b.checkRange start stop
  pure (b.lastIn start stop)

/-- `clear`, for a range that is checked first. -/
def clear? (b : Bitset) (start stop : Nat) : Except Fault Bitset := do
  b.checkRange start stop
  pure (b.clear start stop)

end Bitset

end MarkCompact
