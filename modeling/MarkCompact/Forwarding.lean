import MarkCompact.RegionTable.Packing

/-!
# Forwarding addresses

The new address of a live word follows from its region's destination and the live words of the
region left of it.  Counting those from the start of the region is `scanForward`; the fast paths
are:

* a completely full region, and the partial object at the start of a region, move as one piece;
* a word inside an object moves with the object's start;
* an object start counts from the first object of its block, whose offset `fillBlocks` recorded.

Blocks are recorded when they are first needed, so `forward` returns the table too.
-/

namespace MarkCompact

namespace RegionTable

/-! ## Block offsets -/

/-- Records, for each block from bit `beg` up to, not including, bit `stop` in which an object
starts, the live words left of its first object.  `blockSeen` is the last block recorded, `live` the
live words so far; at most `tries` objects are visited. -/
def recordBlocks (m : MarkBitmap) (stop : Nat) : (tries beg live : Nat) → (blockSeen : Option Nat) →
    RegionTable → Except Fault RegionTable
  | 0, _, _, _, t => pure t
  | tries + 1, beg, live, blockSeen, t => do
    if stop ≤ beg then pure t
    else
      let b := beg >>> t.geometry.blockLog
      let t ←
        if blockSeen = some b then pure t
        else do
          let _ ← t.block b
          let entry ← Block.setOffset live
          pure { t with blocks := t.blocks.set b entry }
      let last := m.ends.firstIn beg stop
      if stop ≤ last + 1 then pure t
      else
        let next := m.begins.firstIn (last + 1) stop
        recordBlocks m stop tries next (live + (last - beg + 1)) (some b) t

/-- Records the block offsets of region `r`.  Recording them again changes nothing. -/
def fillBlocks (t : RegionTable) (m : MarkBitmap) (r : Nat) : Except Fault RegionTable := do
  let a ← t.region r
  let t ←
    if t.geometry.regionWords ≤ a.partialWords then pure t
    else do
      let first ← m.bitOf (t.regionStart r)
      let stop := first + t.geometry.regionWords
      let beg := m.begins.firstIn (first + a.partialWords) stop
      recordBlocks m stop (t.geometry.regionWords + 1) beg a.partialWords none t
  t.update r fun a => pure { a with blocksFilled := true }

/-! ## Addresses -/

/-- The new address of the object at `addr`, by counting from the start of its region. -/
def scanForward (t : RegionTable) (m : MarkBitmap) (addr : Nat) : Except Fault Nat := do
  let r ← t.regionOf addr
  let a ← t.region r
  let live ← m.liveWords (t.regionStart r) addr
  Word.add a.destination (Word.bytes (a.partialWords + live))

/-- The new address of the word at `addr` if its whole region, or the part of an object that it lies
in, moves as one piece. -/
def forwardWhole? (t : RegionTable) (addr : Nat) : Except Fault (Option Nat) := do
  let r ← t.regionOf addr
  let a ← t.region r
  let offset ← t.offsetInRegion addr
  if a.dataWords = t.geometry.regionWords ∨ offset < a.partialWords then
    let result ← Word.add a.destination (bytesPerWord * offset)
    pure (some result)
  else pure none

/-- The new address of the object that starts at `addr`, from the block table. -/
def forwardStart (t : RegionTable) (m : MarkBitmap) (addr : Nat) :
    Except Fault (Nat × RegionTable) := do
  let r ← t.regionOf addr
  let a ← t.region r
  let t ← if a.blocksFilled then pure t else t.fillBlocks m r
  let b ← t.blockOf addr
  let entry ← t.block b
  let blockStart ← t.blockAlignDown addr
  let live ← m.liveWords blockStart addr
  let result ← Word.add a.destination (Word.bytes (entry.offset + live))
  let scanned ← t.scanForward m addr
  if result ≠ scanned then throw (.forwardingDisagrees addr)
  pure (result, t)

/-- The start of the object around `addr`, which must be a live word of region `r` whose object
starts in that region. -/
def objectAround (t : RegionTable) (m : MarkBitmap) (r addr : Nat) : Except Fault Nat := do
  let limit ← m.bitOf (t.regionStart r)
  let bit ← m.bitOf addr
  match ← m.begins.lastIn? limit (bit + 1) with
  | none => throw (.notLive addr)
  | some beg =>
    let object := m.addrOf beg
    let words ← m.objectSize object
    let stop ← Word.add object (bytesPerWord * words)
    if addr < stop then pure object else throw (.notLive addr)

/-- The new address of the live word at `addr`: an object start, or any address inside an object. -/
def forward (t : RegionTable) (m : MarkBitmap) (addr : Nat) : Except Fault (Nat × RegionTable) := do
  match ← t.forwardWhole? addr with
  | some result => pure (result, t)
  | none =>
    if ← m.isMarked addr then t.forwardStart m addr
    else
      let r ← t.regionOf addr
      let object ← t.objectAround m r addr
      let (start, t) ←
        match ← t.forwardWhole? object with
        | some start => pure (start, t)
        | none => t.forwardStart m object
      let result ← Word.add start (addr - object)
      pure (result, t)

end RegionTable

end MarkCompact
