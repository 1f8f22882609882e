import MarkCompact.Heap
import MarkCompact.Limiter

/-!
# Choosing the dense prefix

A space is first planned as if everything moved to its bottom.  From that plan the dense prefix is
chosen: the leading part of the space where so little is dead that moving the objects costs more
than it would reclaim.  The leading run of full regions is always part of it; past them the boundary
is the region with the best `reclaimedRatio` among those whose dead space to the left stays within a
budget.

Two binary searches over the plan find the end of the full regions and the end of the budget.
-/

namespace MarkCompact

namespace RegionTable

/-! ## Searches over a plan -/

/-- The dead words left of region `r`, which must not be planned to move right. -/
def deadToLeft (t : RegionTable) (r : Nat) : Except Fault Nat := do
  let a ← t.region r
  let start ← t.regionStart? r
  if start < a.destination then throw (.mustMoveLeft r)
  pure ((start - a.destination) / bytesPerWord)

/-- Searches the regions from `left` to `right`, in at most `tries` probes, for the first one that
has dead space to its left or is not full. -/
def searchDeadSpace (t : RegionTable) : (tries left right : Nat) → Except Fault Nat
  | 0, left, _ => pure left
  | tries + 1, left, right => do
    if right ≤ left then pure left
    else
      let middle := left + (right - left) / 2
      let a ← t.region middle
      let start ← t.regionStart? middle
      if start < a.destination then throw (.mustMoveLeft middle)
      if left < middle ∧ a.destination < start then t.searchDeadSpace tries left (middle - 1)
      else if middle < right ∧ a.dataWords = t.geometry.regionWords then
        t.searchDeadSpace tries (middle + 1) right
      else pure middle

/-- The first region from `beg` up to, not including, `stop` that has dead space to its left or is
not completely full. -/
def firstDeadSpace (t : RegionTable) (beg stop : Nat) : Except Fault Nat :=
  t.searchDeadSpace (stop - beg + 1) beg (if beg < stop then stop - 1 else beg)

/-- Searches the regions from `left` to `right`, in at most `tries` probes, for one with `budget`
dead words to its left. -/
def searchDeadWood (t : RegionTable) (budget : Nat) : (tries left right : Nat) → Except Fault Nat
  | 0, left, _ => pure left
  | tries + 1, left, right => do
    if right ≤ left then pure left
    else
      let middle := left + (right - left) / 2
      let dead ← t.deadToLeft middle
      if left < middle ∧ budget < dead then t.searchDeadWood budget tries left (middle - 1)
      else if middle < right ∧ dead < budget then t.searchDeadWood budget tries (middle + 1) right
      else pure middle

/-- The region from `beg` up to, not including, `stop` with roughly `budget` dead words to its
left. -/
def deadWoodLimit (t : RegionTable) (beg stop budget : Nat) : Except Fault Nat :=
  t.searchDeadWood budget (stop - beg + 1) beg (if beg < stop then stop - 1 else beg)

/-! ## What compaction would gain -/

/-- The space that compacting from region `r` on reclaims, relative to its cost: a word updated in
place costs one, a word copied one and a quarter. -/
def reclaimedRatio (t : RegionTable) (r bottom top newTop : Nat) : Except Fault Float := do
  let a ← t.region r
  if ¬(newTop ≤ top ∧ bottom < newTop) then throw .newTopAboveTop
  if newTop < a.destination then throw .destinationAboveNewTop
  let kept ← Word.delta a.destination bottom
  let moved ← Word.delta newTop a.destination
  let start ← t.regionStart? r
  let used ← Word.delta top start
  let reclaimed ← Word.sub used moved
  pure (wordToFloat reclaimed / (wordToFloat kept + 1.25 * wordToFloat moved))

/-- The best of `count` regions from `r` on, and its ratio; ties go to the left. -/
def bestRegion (t : RegionTable) (bottom top newTop : Nat) :
    (count r best : Nat) → (ratio : Float) → Except Fault (Nat × Float)
  | 0, _, best, ratio => pure (best, ratio)
  | count + 1, r, best, ratio => do
    let candidate ← t.reclaimedRatio r bottom top newTop
    if candidate > ratio then t.bestRegion bottom top newTop count (r + 1) r candidate
    else t.bestRegion bottom top newTop count (r + 1) best ratio

end RegionTable

/-! ## The choice -/

/-- The dead words that a dense prefix of a space may keep: a fraction `limit` of the capacity, but
no more than there are. -/
def deadWoodBudget (capacity dead : Nat) (limit : Float) : Nat :=
  min (truncate (wordToFloat capacity * limit)) dead

/-- What led to a dense prefix. -/
structure PrefixChoice where
  density : Float
  budget : Nat
  fullRegion : Nat
  limitRegion : Nat
  region : Nat
  ratio : Float

/-- What a choice reports. -/
def PrefixChoice.record (c : PrefixChoice) (space : String) : LogRecord :=
  ⟨.compaction, .debug,
    s!"{space}: density {fixedDecimal 3 c.density}, dead wood limit {
      c.budget} words, full region {c.fullRegion}, limit region {c.limitRegion}, chose region {
      c.region} (ratio {fixedDecimal 3 c.ratio})"⟩

/-- Chooses the region that the dense prefix of a space ends at. -/
def RegionTable.choosePrefix (t : RegionTable) (s : Space) (l : Limiter) :
    Except Fault PrefixChoice := do
  let beg ← t.regionOf s.bottom
  let topRegion ← t.regionUpTo s.top
  let newTopRegion ← t.regionUpTo s.newTop
  let fullRegion ← t.firstDeadSpace beg newTopRegion
  let live ← Word.delta s.newTop s.bottom
  let density := wordToFloat live / wordToFloat s.capacityWords
  let limit := l.limit density s.deadRatio
  let dead ← Word.sub s.usedWords live
  let budget := deadWoodBudget s.capacityWords dead limit
  let limitRegion ← t.deadWoodLimit fullRegion topRegion budget
  let (region, ratio) ←
    t.bestRegion s.bottom s.top s.newTop (limitRegion - fullRegion) fullRegion fullRegion 0.0
  pure ⟨density, budget, fullRegion, limitRegion, region, ratio⟩

namespace Heap

variable {μ : Type}

/-- The end of the dense prefix of space `i`: its bottom if nothing is live or a maximum compaction
is under way, and otherwise the boundary that was chosen. -/
def computeDensePrefix (i : Nat) (limiter : Limiter) (maximum : Bool) : HeapAction μ Nat := do
  let h ← get
  let s ← check (h.space i)
  if s.newTop = s.bottom ∨ maximum then pure s.bottom
  else
    let choice ← check (h.table.choosePrefix s limiter)
    report (choice.record s.name)
    check (h.table.regionStart? choice.region)

end Heap

/-! ## The end of the prefix -/

/-- Whether dead space runs across the start of a region, which is at bit `bit`: no object reaches
into the region, none starts at its first word and none ends right before it. -/
def deadSpaceCrosses (a : Region) (bit : Nat) (m : MarkBitmap) : Except Fault Bool := do
  if bit = 0 then throw .firstBit
  if a.partialWords ≠ 0 then pure false
  else if ← m.begins.read bit then pure false
  else
    let ends ← m.ends.read (bit - 1)
    pure (!ends)

/-- The start of the dead space that ends right before bit `bit`, in a space that starts at
`bottom`. -/
def deadSpaceStart (m : MarkBitmap) (bottom bit : Nat) : Except Fault Nat := do
  let bottomBit ← m.bitOf bottom
  match ← m.ends.lastIn? bottomBit bit with
  | some last => pure (m.addrOf (last + 1))
  | none => pure bottom

namespace Heap

variable {μ : Type} [ObjectModel μ]

/-- The filler that closes dead space across the boundary at `boundary`, at bit `bit`, if there is
any.  It ends at the boundary unless that would be less than the smallest object. -/
def prefixFiller? (h : Heap μ) (s : Space) (boundary bit : Nat) : Except Fault (Option Run) := do
  let r ← h.table.regionOf boundary
  let a ← h.table.region r
  if ← deadSpaceCrosses a bit h.bitmap then
    let start ← deadSpaceStart h.bitmap s.bottom bit
    let words ← Word.delta boundary start
    let minimum := ObjectModel.minimumWords h.image
    if words < minimum then
      let next ← h.bitmap.firstBegin boundary s.top
      let room ← Word.delta next start
      if room < minimum then throw (.gapTooSmall start)
      pure (some ⟨start, minimum⟩)
    else pure (some ⟨start, words⟩)
  else pure none

/-- Marks a filler as a live object. -/
def addFiller (i : Nat) (filler : Run) : HeapAction μ Unit := do
  onImage fun image => ObjectModel.fillDead image filler.start filler.words
  let _ ← addObject filler.start filler.words
  onSpace i (·.recordStart filler.start)

/-- Turns dead space that crosses the end of the dense prefix of space `i` into a live filler, so
that the prefix ends with an object. -/
def fillPrefixEnd (i : Nat) : HeapAction μ Unit := do
  let h ← get
  let s ← check (h.space i)
  let boundary := s.densePrefix
  let bit ← check (h.bitmap.bitOf boundary)
  match ← check (h.prefixFiller? s boundary bit) with
  | none => pure ()
  | some filler =>
    report ⟨.compaction, .trace,
      s!"{s.name}: filling {filler.words} words at {hex filler.start} before dense prefix end {
        hex boundary}"⟩
    addFiller i filler

end Heap

end MarkCompact
