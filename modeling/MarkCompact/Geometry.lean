import MarkCompact.Log
import MarkCompact.Region
import MarkCompact.Settings
import MarkCompact.Setup

/-!
# Geometry

The covered range is divided into regions of equal size, and each region into blocks; both sizes are
powers of two in words.  A `Geometry` can only be built when the numbers fit, so its equations are
fields: they hold of every geometry.

`Geometry.ofSettings` builds the geometry of a covered range or says why there is none.
-/

namespace MarkCompact

/-- Regions hold at least one card of the object start table. -/
def minimumRegionLog : Nat := 6

/-- How the covered range is divided. -/
structure Geometry where
  regionLog : Nat
  blockLog : Nat
  regionCount : Nat
  regionWords : Nat
  blockWords : Nat
  blocksPerRegion : Nat
  regionWords_eq : regionWords = Nat.pow 2 regionLog
  blockWords_eq : blockWords = Nat.pow 2 blockLog
  blocksPerRegion_eq : blocksPerRegion = Nat.pow 2 (regionLog - blockLog)
  blockLog_le : blockLog ≤ regionLog

namespace Geometry

/-- The geometry of `regionCount` regions. -/
def ofLogs (regionLog blockLog regionCount : Nat) (h : blockLog ≤ regionLog) : Geometry where
  regionLog := regionLog
  blockLog := blockLog
  regionCount := regionCount
  regionWords := Nat.pow 2 regionLog
  blockWords := Nat.pow 2 blockLog
  blocksPerRegion := Nat.pow 2 (regionLog - blockLog)
  regionWords_eq := rfl
  blockWords_eq := rfl
  blocksPerRegion_eq := rfl
  blockLog_le := h

variable (g : Geometry)

def regionBytes : Nat := g.regionWords * bytesPerWord

def blockBytes : Nat := g.blockWords * bytesPerWord

def blocksPerRegionLog : Nat := g.regionLog - g.blockLog

def blockCount : Nat := g.regionCount * g.blocksPerRegion

def coveredBytes : Nat := g.regionCount * g.regionBytes

/-- The blocks of a region make up the region. -/
theorem blocks_mul_blockWords : g.blocksPerRegion * g.blockWords = g.regionWords := by
  rw [g.blocksPerRegion_eq, g.blockWords_eq, g.regionWords_eq]
  simp only [Nat.pow_eq]
  rw [← Nat.pow_add, Nat.sub_add_cancel g.blockLog_le]

theorem regionWords_pos : 0 < g.regionWords := by
  rw [g.regionWords_eq]
  exact Nat.two_pow_pos _

theorem blockWords_pos : 0 < g.blockWords := by
  rw [g.blockWords_eq]
  exact Nat.two_pow_pos _

/-- Divides `coveredBytes` bytes as the settings ask, or says why that is impossible.  A completely
live region must fit the live size field of its summary. -/
def ofSettings (s : Settings) (coveredBytes : Nat) : Except SetupError Geometry := do
  if s.workers = 0 then refuse .noWorkers
  if s.regionLog < minimumRegionLog then refuse (.regionTooSmall s.regionLog minimumRegionLog)
  let regionWords ← Word.shiftLeft 1 s.regionLog
  if liveLimit ≤ regionWords then refuse (.regionTooLarge s.regionLog)
  if h : s.blockLog ≤ s.regionLog then
    let regionBytes := regionWords * bytesPerWord
    if coveredBytes = 0 ∨ coveredBytes % regionBytes ≠ 0 then
      refuse (.coveredNotMultiple coveredBytes regionBytes)
    else
      pure (ofLogs s.regionLog s.blockLog (coveredBytes / regionBytes) h)
  else refuse (.blockTooLarge s.blockLog s.regionLog)

/-- One line for people. -/
def describe : String :=
  s!"CompactOptions \x7b region_size_bytes: {showBytes g.regionBytes}, region_size_words: {
    g.regionWords}, log2_region_words: {g.regionLog}, block_size_words: {
    g.blockWords}, blocks_per_region: {g.blocksPerRegion}, region_count: {
    g.regionCount}, block_count: {g.blockCount}, covered: {showBytes g.coveredBytes} \x7d"

/-- What the collector reports about its geometry when it starts. -/
def report : List LogRecord :=
  [⟨.collector, .info, s!"- Covered: {showBytes g.coveredBytes}"⟩,
   ⟨.collector, .info,
    s!"- Region size: {showBytes g.regionBytes} ({g.regionWords} words), count: {g.regionCount}"⟩,
   ⟨.collector, .info,
    s!"- Block size: {showBytes g.blockBytes} ({g.blockWords} words), {
      g.blocksPerRegion} per region"⟩]

end Geometry

end MarkCompact
