import MarkCompact.Geometry
import MarkCompact.MarkBitmap.Basic
import MarkCompact.Region

/-!
# The region table

One `Region` per region of the covered range and one `Block` per block, both by number from the
start of the range.  An address of the range has a region number, a block number and an offset in
its region; the end of the range has the number one past the last.

`RegionTable.addObject` accounts one live object: the region of its head gets the head's words as
live words, and every further region that the object reaches records it as its partial object.
-/

namespace MarkCompact

/-- The summaries of the regions and blocks of a covered range. -/
structure RegionTable where
  covered : Extent
  geometry : Geometry
  regions : Table Region
  blocks : Table Block

namespace RegionTable

/-- The bytes that the summary of one region takes. -/
def regionRecordBytes : Nat := 48

/-- The bytes that the summary of one block takes. -/
def blockRecordBytes : Nat := 4

/-- The table in which every region is empty. -/
def empty (covered : Extent) (geometry : Geometry) : RegionTable :=
  ⟨covered, geometry, .fresh geometry.regionCount {}, .fresh geometry.blockCount {}⟩

/-! ## Entries -/

/-- The number of a region must be below the count. -/
def checkRegion (t : RegionTable) (r : Nat) : Except Fault Unit :=
  if r < t.geometry.regionCount then pure ()
  else throw (.regionOutOfBounds r t.geometry.regionCount)

/-- The summary of region `r`. -/
def region (t : RegionTable) (r : Nat) : Except Fault Region :=
  if r < t.geometry.regionCount then pure (t.regions.get r)
  else throw (.regionOutOfBounds r t.geometry.regionCount)

/-- Replaces the summary of region `r`. -/
def setRegion (t : RegionTable) (r : Nat) (a : Region) : RegionTable :=
  { t with regions := t.regions.set r a }

/-- Changes the summary of region `r`. -/
def update (t : RegionTable) (r : Nat) (f : Region → Except Fault Region) :
    Except Fault RegionTable := do
  let a ← t.region r
  let b ← f a
  pure (t.setRegion r b)

/-- The summary of block `b`. -/
def block (t : RegionTable) (b : Nat) : Except Fault Block :=
  if b < t.geometry.blockCount then pure (t.blocks.get b)
  else throw (.blockOutOfBounds b t.geometry.blockCount)

/-! ## Addresses -/

/-- The words between the start of the covered range and `addr`. -/
def wordOffset (t : RegionTable) (addr : Nat) : Except Fault Nat := do
  let offset ← t.covered.offset addr
  pure (offset / bytesPerWord)

/-- The region of an address. -/
def regionOf (t : RegionTable) (addr : Nat) : Except Fault Nat := do
  let offset ← t.wordOffset addr
  pure (offset >>> t.geometry.regionLog)

/-- The words between the start of its region and `addr`. -/
def offsetInRegion (t : RegionTable) (addr : Nat) : Except Fault Nat := do
  let offset ← t.wordOffset addr
  pure (offset % t.geometry.regionWords)

/-- The first address of a region of the table, or the end of the covered range. -/
def regionStart (t : RegionTable) (r : Nat) : Nat :=
  t.covered.start + r * t.geometry.regionBytes

/-- `regionStart`, for a number that is checked first. -/
def regionStart? (t : RegionTable) (r : Nat) : Except Fault Nat :=
  if r ≤ t.geometry.regionCount then pure (t.regionStart r) else throw .regionPastEnd

/-- The start of the region of `addr`, which may lie past the covered range. -/
def alignDown (t : RegionTable) (addr : Nat) : Except Fault Nat := do
  let offset ← Word.sub addr t.covered.start
  pure (addr - offset % t.geometry.regionBytes)

/-- The first region start at or after `addr`, which may lie past the covered range.  The rounding
wraps. -/
def alignUp (t : RegionTable) (addr : Nat) : Except Fault Nat := do
  let offset ← Word.sub addr t.covered.start
  let raised := (offset + (t.geometry.regionBytes - 1)) % wordValues
  Word.add t.covered.start (raised - raised % t.geometry.regionBytes)

/-- Whether `addr` is the start of a region. -/
def isAligned (t : RegionTable) (addr : Nat) : Except Fault Bool := do
  let offset ← t.offsetInRegion addr
  pure (offset == 0)

/-- The region of the first region start at or after `addr`: one past the last region that an
interval ending at `addr` reaches. -/
def regionUpTo (t : RegionTable) (addr : Nat) : Except Fault Nat := do
  let aligned ← t.alignUp addr
  t.regionOf aligned

/-- The block of an address. -/
def blockOf (t : RegionTable) (addr : Nat) : Except Fault Nat := do
  let offset ← t.wordOffset addr
  pure (offset >>> t.geometry.blockLog)

/-- The first address of a block; the shift loses bits beyond the word. -/
def blockStart (t : RegionTable) (b : Nat) : Except Fault Nat :=
  Word.add t.covered.start ((b * t.geometry.blockBytes) % wordValues)

/-- The start of the block of `addr`, which may lie past the covered range. -/
def blockAlignDown (t : RegionTable) (addr : Nat) : Except Fault Nat := do
  let offset ← Word.sub addr t.covered.start
  pure (addr - offset % t.geometry.blockBytes)

/-- The first block of a region; the shift loses bits beyond the word. -/
def firstBlock (t : RegionTable) (r : Nat) : Nat :=
  (r * t.geometry.blocksPerRegion) % wordValues

/-! ## Accounting live objects -/

/-- Records the object at `addr` as the partial object of `count` regions from `r` on, which it
covers completely. -/
def coverRegions (addr : Nat) : (count r : Nat) → RegionTable → Except Fault RegionTable
  | 0, _, t => pure t
  | count + 1, r, t => do
    let t ← t.update r fun a => do
      let a ← a.setPartialWords t.geometry.regionWords
      pure { a with partialStart := addr }
    coverRegions addr count (r + 1) t

/-- Accounts the live object of `words` words at `addr`. -/
def addObject (t : RegionTable) (addr words : Nat) : Except Fault RegionTable := do
  if words = 0 then throw .emptyObject
  let offset ← t.wordOffset addr
  let past ← Word.add offset words
  let g := t.geometry
  let head := offset >>> g.regionLog
  let tail := (past - 1) >>> g.regionLog
  if head = tail then t.update head (·.addLive words)
  else
    let t ← t.update head (·.addLive (g.regionWords - offset % g.regionWords))
    let t ← coverRegions addr (tail - (head + 1)) (head + 1) t
    t.update tail fun a => do
      let a ← a.setPartialWords ((past - 1) % g.regionWords + 1)
      pure { a with partialStart := addr }

/-- `before` and the words of partial objects that are joined to the start of region `r`, over at
most `tries` regions. -/
def joinedPartials (t : RegionTable) : (tries r before : Nat) → Nat
  | 0, _, before => before
  | tries + 1, r, before =>
    if r < t.geometry.regionCount then
      let words := (t.regions.get r).partialWords
      if words = t.geometry.regionWords then t.joinedPartials tries (r + 1) (before + words)
      else before + words
    else before

/-- The end of the object that reaches into region `r` from the left, or the start of the region if
there is none. -/
def partialEnd (t : RegionTable) (r : Nat) : Except Fault Nat := do
  let start ← t.regionStart? r
  Word.add start (bytesPerWord * t.joinedPartials (t.geometry.regionCount - r + 1) r 0)

/-! ## Clearing -/

/-- Makes every region and block that meets the range from `addr` to `stop` empty. -/
def clear (t : RegionTable) (addr stop : Nat) : Except Fault RegionTable := do
  let first ← t.regionOf addr
  let last ← t.regionUpTo stop
  if last < first then throw (.sliceInverted first last)
  pure { t with
    regions := t.regions.clear first last
    blocks := t.blocks.clear (t.firstBlock first) (t.firstBlock last) }

end RegionTable

end MarkCompact
