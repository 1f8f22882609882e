import MarkCompact.Bitset
import MarkCompact.Extent

/-!
# The mark bitmap

Live objects are kept as two sets of bits over the words of the covered range: `begins` has the
first word of every marked object and `ends` its last word.  A pair of bits is enough to know an
object's size, to walk live objects in address order, and to find the object around a word.

Addresses are turned into bit numbers by `MarkBitmap.bitOf`, which refuses addresses outside of the
covered range; its end is an address too, for it is where walks stop.
-/

namespace MarkCompact

/-- A run of `words` words from the address `start`. -/
structure Run where
  start : Nat
  words : Nat
  deriving DecidableEq, Repr

/-- The first address past a run. -/
def Run.stop (r : Run) : Nat :=
  r.start + bytesPerWord * r.words

/-- First and last words of the marked objects of a covered range. -/
structure MarkBitmap where
  covered : Extent
  begins : Bitset
  ends : Bitset

namespace MarkBitmap

/-- The bitmap over `covered` in which nothing is marked. -/
def unmarked (covered : Extent) : MarkBitmap :=
  ⟨covered, .empty covered.words, .empty covered.words⟩

/-- The bytes that both sets of bits over `covered` take. -/
def storageBytes (covered : Extent) : Nat :=
  2 * bytesPerWord * Bitset.wordCount covered.words

/-- The number of bits in each of the two sets. -/
def size (m : MarkBitmap) : Nat :=
  m.begins.size

/-! ## Bits and addresses -/

/-- The bit of the word at `addr`. -/
def bitOf (m : MarkBitmap) (addr : Nat) : Except Fault Nat := do
  let offset ← m.covered.offset addr
  pure (offset / bytesPerWord)

/-- The address of a bit. -/
def addrOf (m : MarkBitmap) (bit : Nat) : Nat :=
  m.covered.start + bytesPerWord * bit

/-- The address of a bit, which must not lie past the end. -/
def addrOf? (m : MarkBitmap) (bit : Nat) : Except Fault Nat :=
  if bit ≤ m.size then Word.add m.covered.start (bytesPerWord * bit) else throw .bitPastEnd

/-- The words of the object from its first to its last bit. -/
def runOf (m : MarkBitmap) (first last : Nat) : Run :=
  ⟨m.addrOf first, last - first + 1⟩

/-! ## Marking -/

/-- Marks the object of `words` words at `addr`, and tells whether it was unmarked. -/
def mark (m : MarkBitmap) (addr words : Nat) : Except Fault (Bool × MarkBitmap) := do
  if words = 0 then throw (.emptyMark addr)
  let first ← m.bitOf addr
  let (fresh, begins) ← m.begins.insert first
  if fresh then
    let past ← Word.add first words
    let (_, ends) ← m.ends.insert (past - 1)
    pure (true, { m with begins, ends })
  else
    pure (false, m)

/-- Whether an object was marked at `addr`. -/
def isMarked (m : MarkBitmap) (addr : Nat) : Except Fault Bool := do
  let bit ← m.bitOf addr
  m.begins.read bit

/-! ## Searching -/

/-- The first object start from `addr` up to, not including, `stop`; `stop` if there is none. -/
def firstBegin (m : MarkBitmap) (addr stop : Nat) : Except Fault Nat := do
  let first ← m.bitOf addr
  let last ← m.bitOf stop
  let bit ← m.begins.firstIn? first last
  pure (m.addrOf bit)

/-- The last word of the object around `addr`, looked for up to, not including, `stop`; `stop` if
there is none. -/
def firstEnd (m : MarkBitmap) (addr stop : Nat) : Except Fault Nat := do
  let first ← m.bitOf addr
  let last ← m.bitOf stop
  let bit ← m.ends.firstIn? first last
  pure (m.addrOf bit)

/-- The size in words of the marked object at `addr`. -/
def objectSize (m : MarkBitmap) (addr : Nat) : Except Fault Nat := do
  let first ← m.bitOf addr
  if !(← m.begins.read first) then throw (.noObjectAt addr)
  let last := m.ends.firstIn first m.size
  if m.size ≤ last then throw (.noObjectEnd addr)
  pure (last - first + 1)

/-- Counts the words of the objects that start from bit `first` on, at most `tries` of them.  Every
object must end before bit `stop`, which is at `stopAddr`. -/
def countLive (m : MarkBitmap) (stop stopAddr : Nat) :
    (tries first live : Nat) → Except Fault Nat
  | 0, _, live => pure live
  | tries + 1, first, live =>
    let beg := m.begins.firstIn first stop
    if stop ≤ beg then pure live
    else
      let last := m.ends.firstIn beg stop
      if stop ≤ last then throw (.objectCrosses stopAddr)
      else m.countLive stop stopAddr tries (last + 1) (live + (last - beg + 1))

/-- The words of the objects that start from `addr` on and before the object at `stop`. -/
def liveWords (m : MarkBitmap) (addr stop : Nat) : Except Fault Nat := do
  let last ← m.bitOf stop
  let first ← m.bitOf addr
  m.begins.checkRange first last
  m.countLive last stop (last - first + 1) first 0

/-! ## Clearing -/

/-- Forgets every object start and every object end from `addr` up to, not including, `stop`. -/
def clear (m : MarkBitmap) (addr stop : Nat) : Except Fault MarkBitmap := do
  let first ← m.bitOf addr
  let last ← m.bitOf stop
  let begins ← m.begins.clear? first last
  let ends ← m.ends.clear? first last
  pure { m with begins, ends }

/-- Whether no object starts or ends from `addr` up to, not including, `stop`. -/
def isClear (m : MarkBitmap) (addr stop : Nat) : Except Fault Bool := do
  let first ← m.bitOf addr
  let last ← m.bitOf stop
  m.begins.checkRange first last
  pure (m.begins.firstIn first last == last && m.ends.firstIn first last == last)

end MarkBitmap

end MarkCompact
