import MarkCompact.RegionTable.Basic

/-!
# Planning where regions go

`RegionTable.summarize` packs the live data of a run of source regions from a target address on,
region by region and without gaps.  For each source region it sets where the data goes and how many
other regions the data touches; for each region that starts inside packed data it sets the source
region whose data covers the start.  A region is never split: packing stops at the first region that
does not fit.

`RegionTable.keepInPlace` plans a dense prefix instead: every region is mapped to itself.
-/

namespace MarkCompact

/-- How far a packing came. -/
inductive Packing where
  /-- All the data fits; `target` is its end. -/
  | fits (target : Nat)
  /-- The region at `source` would go to `target` and does not fit. -/
  | stopped (target source : Nat)
  deriving DecidableEq, Repr

namespace RegionTable

/-! ## Regions that stay -/

/-- Maps `count` regions from `r` on to themselves.  They appear completely full, so that forwarding
does not look at their objects. -/
def keepRegions : (count r : Nat) → RegionTable → Except Fault RegionTable
  | 0, _, t => pure t
  | count + 1, r, t => do
    let g := t.geometry
    let start := t.regionStart r
    let t ← t.update r fun a => do
      let a ← { a with destination := start }.setCount 0
      let words ← Word.sub g.regionWords a.partialWords
      { a with source := r }.setLiveWords words
    keepRegions count (r + 1) t

/-- Maps the regions from `addr` up to, not including, `stop` to themselves. -/
def keepInPlace (t : RegionTable) (addr stop : Nat) : Except Fault RegionTable := do
  if !(← t.isAligned addr) then throw .notRegionAligned
  if !(← t.isAligned stop) then throw .notRegionAligned
  let last ← t.regionOf stop
  let first ← t.regionOf addr
  keepRegions (last - first) first t

/-! ## Regions that move -/

/-- The number of regions other than `r` that data from the region `first` to the region `last`
touches. -/
def otherRegions (r first last : Nat) : Nat :=
  (if r = last then 0 else 1) + (if first = last then 0 else 1)

/-- Plans the data of region `r`, `words` words and not empty, for `target`. -/
def placeRegion (t : RegionTable) (r words target : Nat) : Except Fault RegionTable := do
  let lastWord ← Word.add target (Word.bytes (words - 1))
  let first ← t.regionOf target
  let last ← t.regionOf lastWord
  let t ←
    if first ≠ last then t.update last fun a => pure { a with source := r }
    else if ← t.isAligned target then t.update first fun a => pure { a with source := r }
    else pure t
  t.update r (·.setCount (otherRegions r first last))

/-- Packs `count` regions from `r` on, the first to `target`, below `targetEnd`. -/
def packRegions (targetEnd : Nat) : (count r target : Nat) → RegionTable →
    Except Fault (Packing × RegionTable)
  | 0, _, target, t => pure (.fits target, t)
  | count + 1, r, target, t => do
    let t ← t.update r fun a => pure { a with destination := target }
    let a ← t.region r
    let words := a.dataWords
    if words = 0 then packRegions targetEnd count (r + 1) target t
    else
      let next ← Word.add target (Word.bytes words)
      if targetEnd < next then
        if a.partialWords ≠ 0 then throw (.cannotMoveAlone r)
        pure (.stopped target (t.regionStart r), t)
      else
        let t ← t.placeRegion r words target
        packRegions targetEnd count (r + 1) next t

/-- Packs the regions from `sourceBeg` up to, not including, `sourceEnd` to `targetBeg` and below
`targetEnd`. -/
def summarize (t : RegionTable) (targetBeg targetEnd sourceBeg sourceEnd : Nat) :
    Except Fault (Packing × RegionTable) := do
  let last ← t.regionUpTo sourceEnd
  let first ← t.regionOf sourceBeg
  packRegions targetEnd (last - first) first targetBeg t

/-- What a packing reports. -/
def packingRecord (targetBeg targetEnd sourceBeg sourceEnd : Nat) : LogRecord :=
  ⟨.compaction, .trace,
    s!"summarize target {hexRange targetBeg targetEnd} source {hexRange sourceBeg sourceEnd}"⟩

end RegionTable

end MarkCompact
