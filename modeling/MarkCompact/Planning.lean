import MarkCompact.DensePrefix
import MarkCompact.MarkBitmap.Walk

/-!
# Planning a cycle

Per space: account the live objects, plan the space into itself from its bottom, choose the dense
prefix and plan again around it, and record the block offsets of the regions whose objects are
forwarded one by one.
-/

namespace MarkCompact

namespace Heap

variable {μ : Type}

/-! ## Live objects -/

/-- Accounts a list of live objects. -/
def accountObjects : List Run → RegionTable → Except Fault RegionTable
  | [], t => pure t
  | o :: rest, t => do
    let t ← t.addObject o.start o.words
    accountObjects rest t

/-- Accounts the live objects of space `i`. -/
def addLiveObjects (i : Nat) : HeapAction μ Unit := do
  let h ← get
  let s ← check (h.space i)
  let (objects, _) ← check (h.bitmap.liveObjects s.bottom s.top none)
  onTable (accountObjects objects)
  onSpace i fun s => pure
    { s with
      liveWords := objects.foldl (fun words o => words + o.words) 0
      liveObjects := objects.length }

/-! ## Destinations -/

/-- Packs space `i` from `target` on, the sources being its regions from `target` up to its top, and
plans the new top. -/
def packSpace (i target : Nat) : HeapAction μ Unit := do
  let h ← get
  let s ← check (h.space i)
  report (RegionTable.packingRecord target s.limit target s.top)
  let (packing, table) ← check (h.table.summarize target s.limit target s.top)
  modify fun h => { h with table }
  match packing with
  | .stopped _ _ => check (throw (.mustFit s.name))
  | .fits newTop => onSpace i (·.setNewTop newTop)

/-- Plans space `i` into itself from its bottom. -/
def planFromBottom (i : Nat) : HeapAction μ Unit := do
  let h ← get
  let s ← check (h.space i)
  packSpace i s.bottom
  onSpace i (·.setDensePrefix s.bottom)

variable [ObjectModel μ]

/-- What the plan of a space reports. -/
def planRecord (h : Heap μ) (s : Space) : LogRecord :=
  let regions := ((s.densePrefix - s.bottom) / bytesPerWord) >>> h.geometry.regionLog
  ⟨.compaction, .debug,
    s!"{s.name}: dense prefix {hex s.densePrefix} ({regions} regions), new top {hex s.newTop}"⟩

/-- Plans space `i`, which is planned into itself from its bottom, around a dense prefix that ends
at `boundary`. Dead space at the boundary is filled first, so that no unfillable fragment is left
there. -/
def planAround (i boundary : Nat) : HeapAction μ Unit := do
  let s ← check ((← get).space i)
  onSpace i (·.setDensePrefix boundary)
  if boundary ≠ s.bottom then
    fillPrefixEnd i
    onTable (·.keepInPlace s.bottom boundary)
    packSpace i boundary

/-- Chooses the dense prefix of space `i` and plans the space around it.  A maximum compaction has
none. -/
def planAroundPrefix (i : Nat) (limiter : Limiter) (maximum : Bool) : HeapAction μ Unit := do
  let s ← check ((← get).space i)
  if s.newTop ≠ s.bottom then
    let boundary ← computeDensePrefix i limiter maximum
    planAround i boundary
    let h ← get
    let s ← check (h.space i)
    report (h.planRecord s)

/-! ## Block offsets -/

omit [ObjectModel μ] in
/-- Records the block offsets of those of `count` regions from `r` on that are neither empty nor
full. -/
def fillBlocksFrom (m : MarkBitmap) : (count r : Nat) → RegionTable → Except Fault RegionTable
  | 0, _, t => pure t
  | count + 1, r, t => do
    let words := (← t.region r).dataWords
    let t ← if 0 < words ∧ words < t.geometry.regionWords then t.fillBlocks m r else pure t
    fillBlocksFrom m count (r + 1) t

/-- Records the block offsets of space `i` above its dense prefix. -/
def fillSpaceBlocks (i : Nat) : HeapAction μ Unit := do
  let h ← get
  let s ← check (h.space i)
  let beg ← check (h.table.regionOf s.densePrefix)
  let stop ← check (h.table.regionUpTo s.top)
  onTable (fillBlocksFrom h.bitmap (stop - beg) beg)

/-- Plans space `i`. -/
def planSpace (limiter : Limiter) (maximum : Bool) (i : Nat) : HeapAction μ Unit := do
  addLiveObjects i
  planFromBottom i
  planAroundPrefix i limiter maximum
  fillSpaceBlocks i

/-- Plans every space. -/
def planSpaces (limiter : Limiter) (maximum : Bool) : HeapAction μ Unit := do
  let h ← get
  (List.range h.spaces.length).forM (planSpace limiter maximum)

end Heap

end MarkCompact
