import MarkCompact.Word

/-!
# Address ranges

An `Extent` is the half-open range of `size` bytes from `start`.  Its end is computed when it is
needed and must be a machine word, so an extent that runs past the last address has no end.

Main statement: `Extent.contains_eq_ok`, membership of an extent that has an end.
-/

namespace MarkCompact

/-- The range of addresses from `start` up to, not including, `start + size`. -/
structure Extent where
  start : Nat
  size : Nat
  deriving DecidableEq, Repr

namespace Extent

/-- The range between two addresses. -/
def ofBounds (start stop : Nat) : Except Fault Extent := do
  let size ← Word.sub stop start
  pure ⟨start, size⟩

/-- The first address past the range. -/
def stop (e : Extent) : Except Fault Nat :=
  Word.add e.start e.size

/-- The whole words in the range. -/
def words (e : Extent) : Nat :=
  e.size / bytesPerWord

/-- Whether the range has no address. -/
def isEmpty (e : Extent) : Bool :=
  e.size == 0

/-- Whether `addr` lies in the range. -/
def contains (e : Extent) (addr : Nat) : Except Fault Bool :=
  if addr < e.start then pure false
  else do
    let stop ← e.stop
    pure (decide (addr < stop))

/-- Whether `inner` lies in the range. -/
def containsExtent (e inner : Extent) : Except Fault Bool :=
  if inner.start < e.start then pure false
  else do
    let innerStop ← inner.stop
    let stop ← e.stop
    pure (decide (innerStop ≤ stop))

/-- The range as messages show it. -/
def describe (e : Extent) : Except Fault String := do
  let stop ← e.stop
  pure (hexRange e.start stop)

/-- The distance of `addr` from the start of a covered range.  The end of the range is an address of
it too: it is where walks stop. -/
def offset (e : Extent) (addr : Nat) : Except Fault Nat := do
  let stop ← e.stop
  if e.start ≤ addr ∧ addr ≤ stop then pure (addr - e.start)
  else throw (.outsideCovered addr e.start stop)

theorem contains_eq_ok {e : Extent} (h : e.start + e.size < wordValues) (addr : Nat) :
    e.contains addr = .ok (decide (e.start ≤ addr ∧ addr < e.start + e.size)) := by
  unfold contains
  by_cases hlt : addr < e.start
  · have : ¬(e.start ≤ addr) := by omega
    simp [hlt, this, pure, Except.pure]
  · have : e.start ≤ addr := by omega
    simp [hlt, this, stop, Word.add_eq h, pure, Except.pure, bind, Except.bind]

theorem offset_eq_ok {e : Extent} (h : e.start + e.size < wordValues) {addr : Nat}
    (hstart : e.start ≤ addr) (hstop : addr ≤ e.start + e.size) :
    e.offset addr = .ok (addr - e.start) := by
  simp [offset, stop, Word.add_eq h, hstart, hstop, bind, Except.bind, pure, Except.pure]

end Extent

end MarkCompact
