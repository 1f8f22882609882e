import MarkCompact.Extent
import MarkCompact.Table

/-!
# Object starts

A space is divided into cards of sixty-four words.  For each card a `StartTable` keeps the offset of
the first object known to start in it, so that the object around any address is found by walking
forward from a recorded start at or before the address.

Recording keeps the least offset, so the order of recordings does not matter.

Main statement: `StartTable.create_eq_ok`, when there is a table over a range.
-/

namespace MarkCompact

/-- Words in a card. -/
def cardWords : Nat := 64

/-- Bytes in a card. -/
def cardBytes : Nat := 512

/-- The first recorded object start of every card, as a word offset in the card. -/
structure StartTable where
  covered : Extent
  cards : Table (Option Nat)

namespace StartTable

/-- The table over `covered` in which no start is recorded. -/
def unrecorded (covered : Extent) : StartTable :=
  ⟨covered, .fresh ((covered.size + (cardBytes - 1)) / cardBytes) none⟩

/-- A table over `covered`, whose size must leave room for one more card in the address space. -/
def create (covered : Extent) : Except Fault StartTable := do
  let _ ← Word.add covered.size cardBytes
  pure (unrecorded covered)

/-- A range that is not almost all of the address space has a table. -/
theorem create_eq_ok {covered : Extent} (h : covered.size + cardBytes < wordValues) :
    create covered = .ok (unrecorded covered) := by
  unfold create
  rw [Word.add_eq h]
  rfl

/-- Forgets every start. -/
def reset (t : StartTable) : StartTable :=
  unrecorded t.covered

/-- The card of an address. -/
def cardOf (t : StartTable) (addr : Nat) : Except Fault Nat := do
  if ← t.covered.contains addr then pure ((addr - t.covered.start) / cardBytes)
  else
    let stop ← t.covered.stop
    throw (.outsideStarts addr t.covered.start stop)

/-- The lesser of a recorded offset, if any, and a new one. -/
def leastOffset : Option Nat → Nat → Nat
  | none, new => new
  | some old, new => min old new

/-- Records that an object starts at `addr`. -/
def record (t : StartTable) (addr : Nat) : Except Fault StartTable := do
  let card ← t.cardOf addr
  let offset := (addr - (t.covered.start + card * cardBytes)) / bytesPerWord
  pure { t with cards := t.cards.modify card fun old => some (leastOffset old offset) }

/-- The recorded start of a card. -/
def recorded? (t : StartTable) (card : Nat) : Option Nat :=
  (t.cards.get card).map fun offset => t.covered.start + card * cardBytes + bytesPerWord * offset

/-- Whether a start is recorded in the card of `addr`. -/
def isRecorded (t : StartTable) (addr : Nat) : Except Fault Bool := do
  let card ← t.cardOf addr
  pure (t.recorded? card).isSome

/-- The last recorded start at or before `addr` in the cards up to `card`, or the start of the
range. -/
def startBefore (t : StartTable) (addr : Nat) : (card : Nat) → Nat
  | 0 =>
    match t.recorded? 0 with
    | some start => if start ≤ addr then start else t.covered.start
    | none => t.covered.start
  | card + 1 =>
    match t.recorded? (card + 1) with
    | some start => if start ≤ addr then start else t.startBefore addr card
    | none => t.startBefore addr card

/-- Walks from the object at `start` to the object around `addr`, over at most `tries` objects. -/
def walkTo (objectWords : Nat → Nat) (addr : Nat) : (tries start : Nat) → Except Fault Nat
  | 0, start => throw (.endlessObject start)
  | tries + 1, start => do
    let next ← Word.add start (Word.bytes (objectWords start))
    if addr < next then pure start else walkTo objectWords addr tries next

/-- The start of the object around `addr`. -/
def objectStart (t : StartTable) (objectWords : Nat → Nat) (addr : Nat) : Except Fault Nat := do
  let card ← t.cardOf addr
  let start := t.startBefore addr card
  walkTo objectWords addr (addr - start + 1) start

end StartTable

end MarkCompact
