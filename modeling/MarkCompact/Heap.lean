import MarkCompact.Forwarding
import MarkCompact.Log
import MarkCompact.ObjectModel
import MarkCompact.Reservation
import MarkCompact.Space

/-!
# The heap

Everything that a collection reads and writes: the covered range and its geometry, the mark bitmap,
the region table, the spaces, and an image of the memory.  A `HeapAction` runs on a heap and ends at
the first fault.

`Heap.create` checks that the spaces fit the covered range and reserves the side tables.  The
queries about addresses are `spaceOf?`, `isLiveWord` and `forwardMetadata`.
-/

namespace MarkCompact

/-- The state of a collection over an image `μ` of memory. -/
structure Heap (μ : Type) where
  covered : Extent
  geometry : Geometry
  bitmap : MarkBitmap
  table : RegionTable
  spaces : List Space
  image : μ
  /-- What has been reported, last first. -/
  log : List LogRecord := []
  /-- Where references have been redirected in this cycle, last first, each time with the image as
  it was before. -/
  updates : List (Nat × μ) := []

/-- A computation on a heap. -/
abbrev HeapAction (μ : Type) := StateT (Heap μ) (Except Fault)

namespace Heap

variable {μ : Type}

/-! ## Setting up -/

/-- Checks one space against the covered range, which is `size` bytes from `start`, and against the
end of the space before it. -/
def checkSpace (covered : Extent) (g : Geometry) (previousEnd : Nat) (c : SpaceConfig) :
    Except SetupError Unit := do
  if c.limit ≤ c.bottom then refuse (.spaceInverted c.name)
  let stop ← covered.stop
  if c.bottom < covered.start ∨ stop < c.limit then
    refuse (.spaceOutside c.name c.bottom c.limit covered.start stop)
  if ¬(Word.isAligned (c.bottom - covered.start) g.regionBytes
      ∧ Word.isAligned (c.limit - covered.start) g.regionBytes) then
    refuse (.spaceMisaligned c.name)
  if c.top < c.bottom ∨ c.limit < c.top ∨ ¬Word.isAligned c.top bytesPerWord then
    refuse (.spaceTop c.name c.top)
  if c.bottom < previousEnd then refuse (.spaceOverlaps c.name)

/-- Checks spaces one after the other. -/
def checkSpaces (covered : Extent) (g : Geometry) :
    (previousEnd : Nat) → List SpaceConfig → Except SetupError Unit
  | _, [] => pure ()
  | previousEnd, c :: rest => do
    checkSpace covered g previousEnd c
    checkSpaces covered g c.limit rest

/-- A heap over `covered` with nothing marked and nothing planned. -/
def create (covered : Extent) (g : Geometry) (configs : List SpaceConfig) (image : μ) :
    Except SetupError (Heap μ) := do
  if configs.isEmpty then refuse .noSpaces
  checkSpaces covered g covered.start configs
  let _ ← reserve "mark bitmap" (MarkBitmap.storageBytes covered) pageBytes
  if covered.size ≠ g.coveredBytes then throw (.broken .wrongCoveredSize)
  let _ ← reserve "region table" (g.regionCount * RegionTable.regionRecordBytes) pageBytes
  let _ ← reserve "block table" (g.blockCount * RegionTable.blockRecordBytes) pageBytes
  pure
    { covered := covered
      geometry := g
      bitmap := .unmarked covered
      table := .empty covered g
      spaces := configs.map Space.ofConfig
      image := image }

/-! ## Spaces -/

/-- The space with number `i`. -/
def space (h : Heap μ) (i : Nat) : Except Fault Space :=
  match h.spaces[i]? with
  | some s => pure s
  | none => throw (.indexOutOfBounds h.spaces.length i)

/-- Replaces the space with number `i`. -/
def setSpace (h : Heap μ) (i : Nat) (s : Space) : Heap μ :=
  { h with spaces := h.spaces.set i s }

/-- Whether `addr` lies in the covered range. -/
def isIn (h : Heap μ) (addr : Nat) : Bool :=
  h.covered.start ≤ addr && addr < h.covered.start + h.covered.size

/-- The number of the space of `addr`. -/
def spaceOf? (h : Heap μ) (addr : Nat) : Option Nat :=
  if h.isIn addr then h.spaces.findIdx? (·.contains addr) else none

/-- Whether `addr` may hold an object of some space. -/
def isInSpace (h : Heap μ) (addr : Nat) : Bool :=
  (h.spaceOf? addr).isSome

/-! ## Live words -/

/-- Whether `addr` is any word of a marked object. -/
def isLiveWord (h : Heap μ) (addr : Nat) : Except Fault Bool := do
  if ← h.bitmap.isMarked addr then pure true
  else
    match (h.spaceOf? addr).bind (h.spaces[·]?) with
    | none => pure false
    | some s => do
      let limit ← h.bitmap.bitOf s.bottom
      let bit ← h.bitmap.bitOf addr
      match ← h.bitmap.begins.lastIn? limit bit with
      | none => pure false
      | some beg =>
        let object := h.bitmap.addrOf beg
        let words ← h.bitmap.objectSize object
        let stop ← Word.add object (bytesPerWord * words)
        pure (decide (addr < stop))

/-! ## Actions -/

/-- Runs a check that can fault and changes nothing. -/
def check {α : Type} (result : Except Fault α) : HeapAction μ α :=
  liftM result

/-- Adds a record to the log. -/
def report (record : LogRecord) : HeapAction μ Unit :=
  modify fun h => { h with log := record :: h.log }

/-- Changes the region table. -/
def onTable (f : RegionTable → Except Fault RegionTable) : HeapAction μ Unit := do
  let h ← get
  let table ← check (f h.table)
  set { h with table }

/-- Changes the space with number `i`. -/
def onSpace (i : Nat) (f : Space → Except Fault Space) : HeapAction μ Unit := do
  let h ← get
  let s ← check (h.space i)
  let s ← check (f s)
  set (h.setSpace i s)

/-- Changes the image. -/
def onImage (f : μ → Except Fault μ) : HeapAction μ Unit := do
  let h ← get
  let image ← check (f h.image)
  set { h with image }

/-- Marks the object of `words` words at `addr` and accounts it; whether it was unmarked. -/
def addObject (addr words : Nat) : HeapAction μ Bool := do
  let h ← get
  let (fresh, bitmap) ← check (h.bitmap.mark addr words)
  set { h with bitmap }
  onTable (·.addObject addr words)
  pure fresh

/-- The new address of a live word. -/
def forward (addr : Nat) : HeapAction μ Nat := do
  let h ← get
  let (result, table) ← check (h.table.forward h.bitmap addr)
  set { h with table }
  pure result

/-- The new address of a word that is live; null otherwise. -/
def forwardLive (addr : Nat) : HeapAction μ Nat := do
  let h ← get
  if addr = 0 then pure 0
  else if ← check (h.isLiveWord addr) then forward addr
  else pure 0

/-- The new address of a metadata reference.  Metadata outside of the spaces, or in a dense prefix,
stays. -/
def forwardMetadata (addr : Nat) : HeapAction μ Nat := do
  let h ← get
  match (h.spaceOf? addr).bind (h.spaces[·]?) with
  | some s => if s.densePrefix ≤ addr then forward addr else pure addr
  | none => pure addr

end Heap

end MarkCompact
