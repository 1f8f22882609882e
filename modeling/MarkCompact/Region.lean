import MarkCompact.Word

/-!
# Regions

A `Region` summarises the live data of one region of the heap during a cycle.  Its `state` packs two
numbers into one word of thirty-two bits, so that a claim is a single exchange:

```
31        27 26                                   0
+------------+--------------------------------------+ |   count    |          live object size
| +------------+--------------------------------------+
```

The count is the number of regions that this region's data goes to, up to seven, while the region is
waiting or available; eight means claimed and twelve means completed.  The numbers are in that
order, so a region's phase is a comparison of the packed word.

Main statements: `Region.unpack_pack`, the two numbers are read back from a packed word, and
`Region.phase_of_count`, the phase is a function of the count alone.
-/

namespace MarkCompact

/-! ## The packed word -/

/-- How far the live object size reaches into the packed word. -/
def liveBits : Nat := 27

/-- One more than the largest live object size. -/
def liveLimit : Nat := 134217728

/-- The count of a claimed region. -/
def claimedCount : Nat := 8

/-- The count of a completed region. -/
def completedCount : Nat := 12

/-- Packs a count and a live object size. -/
def packState (count live : Nat) : Nat :=
  count * liveLimit + live

/-- How far a region has come in a cycle. -/
inductive Phase where
  /-- Some destination of the region's data is not filled yet. -/
  | waiting
  /-- All the data has been copied out; the region may be claimed. -/
  | available
  /-- One worker fills the region. -/
  | claimed
  /-- The region has been filled. -/
  | completed
  deriving DecidableEq, Repr

/-- The phase that a count means. -/
def Phase.ofCount (count : Nat) : Phase :=
  if completedCount ≤ count then .completed
  else if claimedCount ≤ count then .claimed
  else if count = 0 then .available
  else .waiting

/-! ## The record -/

/-- The summary of one region. -/
structure Region where
  /-- Where the first live word of the region is copied to. -/
  destination : Nat := 0
  /-- The first region whose data is copied to the span that starts here. -/
  source : Nat := 0
  /-- The start of the object that reaches into the region from the left. -/
  partialStart : Nat := 0
  /-- The words of that object in this region. -/
  partialWords : Nat := 0
  /-- Destination count and live object size. -/
  state : Nat := 0
  /-- The new address of an object whose references are updated after copying. -/
  deferred : Nat := 0
  /-- Whether the block offsets of the region have been recorded. -/
  blocksFilled : Bool := false
  /-- Whether the region has been queued in this cycle. -/
  pushed : Bool := false
  deriving DecidableEq, Repr, Inhabited

namespace Region

/-- Words of the objects that start in the region. -/
def liveWords (r : Region) : Nat :=
  r.state % liveLimit

/-- The destination count, or the number that stands for claimed or completed. -/
def count (r : Region) : Nat :=
  r.state / liveLimit

/-- Words that are copied out of the region. -/
def dataWords (r : Region) : Nat :=
  r.partialWords + r.liveWords

/-- The phase of the region. -/
def phase (r : Region) : Phase :=
  .ofCount r.count

/-- Whether nothing is left to copy out and nobody has claimed the region. -/
def isAvailable (r : Region) : Bool :=
  r.state < liveLimit

/-- Whether the region has been claimed, and perhaps completed. -/
def isClaimed (r : Region) : Bool :=
  claimedCount * liveLimit ≤ r.state

/-- Whether the region has been completed. -/
def isCompleted (r : Region) : Bool :=
  completedCount * liveLimit ≤ r.state

/-! ## Planning -/

/-- Records how much of an object from the left lies in the region. -/
def setPartialWords (r : Region) (words : Nat) : Except Fault Region :=
  if words < liveLimit then pure { r with partialWords := words }
    else throw (.partialTooLarge words)

/-- Sets the destination count of a region that nobody has claimed. -/
def setCount (r : Region) (count : Nat) : Except Fault Region :=
  if count < claimedCount then pure { r with state := packState count r.liveWords }
  else throw (.countTooLarge count)

/-- Sets the words of the objects that start in the region. -/
def setLiveWords (r : Region) (words : Nat) : Except Fault Region :=
  if words < liveLimit then pure { r with state := packState r.count words }
  else throw (.liveTooLarge words)

/-- Adds an object that starts in the region. -/
def addLive (r : Region) (words : Nat) : Except Fault Region := do
  let sum ← Word.add r.liveWords words
  if sum < liveLimit then pure { r with state := r.state + words }
  else throw (.liveSumTooLarge r.liveWords words)

/-! ## Compacting -/

/-- One destination of the region's data has been filled. -/
def decrement (r : Region) : Except Fault Region :=
  if claimedCount * liveLimit ≤ r.state then throw .decrementOfClaimed
  else if r.state < liveLimit then throw .countUnderflow
  else pure { r with state := r.state - liveLimit }

/-- Claims an available region, and tells whether that succeeded. -/
def claim (r : Region) : Bool × Region :=
  if r.state = r.liveWords then (true, { r with state := packState claimedCount r.liveWords })
  else (false, r)

/-- Claims a region while a single thread owns the table. -/
def claimAlone (r : Region) : Bool × Region :=
  if r.isAvailable then (true, { r with state := packState claimedCount r.state }) else (false, r)

/-- The claimed region has been filled. -/
def complete (r : Region) : Except Fault Region :=
  if r.state < claimedCount * liveLimit then throw .completionUnclaimed
  else if completedCount * liveLimit ≤ r.state then throw .completionTwice
  else pure { r with state := packState completedCount r.liveWords }

/-- A region is queued at most once in a cycle. -/
def notePushed (r : Region) : Except Fault Region :=
  if r.pushed then throw .pushedTwice else pure { r with pushed := true }

/-! ## The packing is faithful -/

/-- The two packed numbers are read back. -/
theorem unpack_pack (r : Region) {count live : Nat} (h : live < liveLimit) :
    ({ r with state := packState count live } : Region).count = count
      ∧ ({ r with state := packState count live } : Region).liveWords = live := by
  have hpos : 0 < liveLimit := by decide
  constructor
  · simp only [Region.count, packState]
    rw [Nat.mul_comm, Nat.mul_add_div hpos, Nat.div_eq_of_lt h, Nat.add_zero]
  · simp only [Region.liveWords, packState]
    rw [Nat.mul_comm, Nat.mul_add_mod, Nat.mod_eq_of_lt h]

theorem pack_unpack (r : Region) : packState r.count r.liveWords = r.state := by
  simp only [packState, Region.count, Region.liveWords]
  rw [Nat.mul_comm]
  exact Nat.div_add_mod r.state liveLimit

theorem liveWords_lt (r : Region) : r.liveWords < liveLimit :=
  Nat.mod_lt _ (by decide)

/-- The tests of the packed word decide the phase. -/
theorem phase_of_count (r : Region) :
    r.phase = if r.isCompleted then .completed else if r.isClaimed then .claimed
      else if r.isAvailable then .available else .waiting := by
  have hdiv := pack_unpack r
  have hlt := liveWords_lt r
  simp only [packState, liveLimit] at hdiv hlt
  simp only [phase, Phase.ofCount, isCompleted, isClaimed, isAvailable, completedCount,
    claimedCount, liveLimit]
  grind

end Region

/-! ## Blocks -/

/-- The live words of a region left of the first object that starts in one of its blocks; only
meaningful for blocks in which an object starts. -/
structure Block where
  offset : Nat := 0
  deriving DecidableEq, Repr, Inhabited

/-- Records the offset of a block. -/
def Block.setOffset (words : Nat) : Except Fault Block :=
  if words < liveLimit then pure ⟨words⟩ else throw .blockOffsetTooLarge

end MarkCompact
