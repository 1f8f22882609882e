import MarkCompact.Compaction
import MarkCompact.Marking
import MarkCompact.Planning

/-!
# The collector

A `Collector` owns a heap and runs stop-the-world cycles on it: mark from the roots, plan, compact,
adjust the roots, check the result, and move the tops.

Which cycles are maximum compactions is decided by `isMaximum` from two counters: a cycle is one if
it is asked for, if dense prefixes are switched off, if it has the number of the first one, or if
more than the interval of cycles has passed since the last one.
-/

namespace MarkCompact

/-- What a cycle did to one space. -/
structure SpaceSummary where
  name : String
  usedBefore : Nat
  newTop : Nat
  densePrefix : Nat
  liveWords : Nat
  deriving DecidableEq, Repr

/-- What a cycle did. -/
structure CycleSummary where
  number : Nat
  spaces : List SpaceSummary
  liveObjects : Nat
  maximum : Bool
  weakCleared : Nat
  totals : CompactTotals
  deriving DecidableEq, Repr

/-- The roots of a host, as addresses. -/
structure Roots where
  strong : List Nat := []
  weak : List Nat := []
  deriving DecidableEq, Repr

/-- A heap with its settings and its history. -/
structure Collector (μ : Type) where
  settings : Settings
  heap : Heap μ
  limiter : Limiter
  /-- Cycles that have been run. -/
  cycles : Nat := 0
  /-- The number of the last maximum compaction. -/
  lastMaximum : Nat := 0

namespace Heap

variable {μ : Type}

/-! ## Before and after a cycle -/

/-- Clears the side tables over space `i`. -/
def clearSpace (i : Nat) : HeapAction μ Unit := do
  let h ← get
  let s ← check (h.space i)
  let bitmap ← check (h.bitmap.clear s.bottom s.limit)
  modify fun h => { h with bitmap }
  onTable (·.clear s.bottom s.limit)
  onSpace i fun s => pure { s with starts := s.starts.reset, liveWords := 0, liveObjects := 0 }

/-- Moves every top to the new top. -/
def moveTops : HeapAction μ Unit := do
  let h ← get
  let spaces ← check (h.spaces.mapM fun s => s.setTop s.newTop)
  set { h with spaces }

/-! ## Checking the result -/

/-- Checks that `count` regions from `r` on are completed. -/
def checkCompleted (t : RegionTable) (space : String) : (count r : Nat) → Except Fault Unit
  | 0, _ => pure ()
  | count + 1, r => do
    let a ← t.region r
    if !a.isCompleted then throw (.notCompleted space r)
    checkCompleted t space count (r + 1)

/-- Checks that `count` regions from `r` on were drained and not claimed. -/
def checkDrained (t : RegionTable) (space : String) : (count r : Nat) → Except Fault Unit
  | 0, _ => pure ()
  | count + 1, r => do
    let a ← t.region r
    if !a.isAvailable then throw (.notDrained space r a.count)
    checkDrained t space count (r + 1)

/-- Checks that the objects from `addr` on, at most `tries` of them, have recorded starts and end
exactly at the new top. -/
def checkParsable (objectWords : Nat → Nat) (s : Space) : (tries addr : Nat) → Except Fault Unit
  | 0, addr => throw (.endlessObject addr)
  | tries + 1, addr =>
    if s.newTop ≤ addr then if addr = s.newTop then pure () else throw (.overrunsNewTop s.name)
    else do
      let start ← s.starts.objectStart objectWords addr
      if start ≠ addr then throw (.startNotRecorded s.name addr)
      checkParsable objectWords s tries (addr + bytesPerWord * objectWords addr)

variable [ObjectModel μ]

/-- Checks one space, which had `used` words before the cycle: destination regions are completed,
the regions above them released, and the space is tiled by objects with recorded starts. -/
def checkSpaceResult (h : Heap μ) (s : Space) (used : Nat) : Except Fault Unit := do
  let oldTop := s.bottom + bytesPerWord * used
  let beg ← h.table.regionOf s.bottom
  let newTopRegion ← h.table.regionUpTo s.newTop
  let oldTopRegion ← h.table.regionUpTo oldTop
  checkCompleted h.table s.name (newTopRegion - beg) beg
  checkDrained h.table s.name (oldTopRegion - newTopRegion) newTopRegion
  checkParsable (ObjectModel.objectWords h.image) s (s.newTop - s.bottom + 1) s.bottom

/-- Checks every space. -/
def checkResult (usedBefore : List Nat) : HeapAction μ Unit := do
  let h ← get
  (h.spaces.zip usedBefore).forM fun (s, used) => check (h.checkSpaceResult s used)
  report ⟨.compaction, .trace, "verification passed"⟩

end Heap

namespace Collector

variable {μ : Type}

/-! ## Setting up -/

/-- What the collector reports when it starts. -/
def startRecords (s : Settings) (h : Heap μ) : List LogRecord :=
  let range := hexRange h.covered.start (h.covered.start + h.covered.size)
  ⟨.collector, .info,
      s!"Collector initialized over {range} with {s.workers} worker(s)"⟩
    :: h.geometry.report
    ++ h.spaces.map fun space => ⟨.collector, .debug, space.describe⟩

/-- A collector over a covered range that contains every space. -/
def create (settings : Settings) (covered : Extent) (configs : List SpaceConfig) (image : μ) :
    Except SetupError (Collector μ) := do
  let geometry ← Geometry.ofSettings settings covered.size
  let heap ← Heap.create covered geometry configs image
  pure
    { settings
      heap := { heap with log := (startRecords settings heap).reverse }
      limiter := .ofPercent settings.deadWoodMean settings.deadWoodDeviation }

/-! ## Which cycles are maximum compactions -/

/-- Whether cycle `number` is a maximum compaction, the last one having been `lastMaximum`. -/
def isMaximum (s : Settings) (requested : Bool) (number lastMaximum : Nat) : Bool :=
  requested || !s.useDensePrefix || s.maximumInterval < number - lastMaximum
    || number == s.firstMaximum

/-! ## A cycle -/

variable [ObjectModel μ]

open Heap in
/-- Marks, plans, compacts and adjusts.  The answer is the roots, what was marked, what was copied
and how many weak roots were cleared. -/
def runPhases (s : Settings) (limiter : Limiter) (maximum : Bool) (usedBefore : List Nat)
    (roots : Roots) : HeapAction μ (Roots × MarkTotals × CompactTotals × Nat) := do
  let marked ← markLive roots.strong
  report ⟨.marking, .debug,
    s!"marking done in _ ms: {marked.objects} objects, {showBytes (marked.words * bytesPerWord)}"⟩
  planSpaces limiter maximum
  report ⟨.compaction, .debug, "summary done in _ ms"⟩
  let totals ← compact s.workers s.prefixTasksPerWorker
  report ⟨.compaction, .debug,
    s!"compaction done in _ ms: {totals.regionsFilled} regions filled, {
      totals.prefixRegions} dense prefix regions, {totals.wordsCopied} words copied, {
      totals.deferredObjects} deferred"⟩
  let (strong, _) ← adjustRoots .root roots.strong [] 0
  let (weak, cleared) ← adjustRoots .weak roots.weak [] 0
  report ⟨.compaction, .debug,
    s!"root adjustment done in _ ms, {cleared} weak root(s) cleared"⟩
  if s.verify then checkResult usedBefore
  moveTops
  pure (⟨strong, weak⟩, marked, totals, cleared)

/-- What a finished cycle reports. -/
def cycleRecords (c : CycleSummary) (bottoms : List Nat) (marked : MarkTotals) : List LogRecord :=
  let kind := if c.maximum then " (maximum compaction)" else ""
  (c.spaces.zip bottoms).map (fun (s, bottom) =>
    ⟨.collector, .info,
      s!"GC({c.number}) {s.name}: {showBytes (s.usedBefore * bytesPerWord)}->{
        showBytes (s.newTop - bottom)} (dense prefix {showBytes (s.densePrefix - bottom)})"⟩)
    ++ [⟨.collector, .info,
      s!"GC({c.number}) Pause Full{kind} {marked.objects} live objects ({
        showBytes (marked.words * bytesPerWord)}) in _ ms"⟩]

open Heap in
/-- Everything cycle `number` does to the heap. -/
def runCycle (s : Settings) (limiter : Limiter) (maximum : Bool) (number : Nat) (roots : Roots) :
    HeapAction μ (CycleSummary × Roots) := do
  report ⟨.collector, .debug, s!"GC({number}) start, maximum compaction: {maximum}"⟩
  let h ← get
  let usedBefore := h.spaces.map Space.usedWords
  set { h with updates := [] }
  (List.range h.spaces.length).forM clearSpace
  let (roots, marked, totals, cleared) ← runPhases s limiter maximum usedBefore roots
  let h ← get
  let summary : CycleSummary :=
    { number, maximum, totals
      spaces := (h.spaces.zip usedBefore).map fun (s, used) =>
        ⟨s.name, used, s.newTop, s.densePrefix, s.liveWords⟩
      liveObjects := marked.objects
      weakCleared := cleared }
  (cycleRecords summary (h.spaces.map (·.bottom)) marked).forM report
  pure (summary, roots)

/-- Runs one cycle. -/
def invoke (c : Collector μ) (roots : Roots) (requested : Bool) :
    Except Fault (CycleSummary × Roots × Collector μ) := do
  let number := c.cycles + 1
  let maximum := isMaximum c.settings requested number c.lastMaximum
  let ((summary, roots), heap) ←
    (runCycle c.settings c.limiter maximum number roots).run c.heap
  pure (summary, roots,
    { c with
      heap
      cycles := number
      lastMaximum := if maximum then number else c.lastMaximum })

/-- The start of the object around `addr`, as recorded by the last cycle; `none` above the tops and
outside of the spaces. -/
def objectStart (c : Collector μ) (addr : Nat) : Except Fault (Option Nat) :=
  match (c.heap.spaceOf? addr).bind (c.heap.spaces[·]?) with
  | none => pure none
  | some s =>
    if s.top ≤ addr then pure none
    else do
      let start ← s.starts.objectStart (ObjectModel.objectWords c.heap.image) addr
      pure (some start)

/-- The object starts around the words from `bottom` up to, not including, `top`, one for each run
of words with the same one. -/
def objectStarts (c : Collector μ) (bottom top : Nat) : Except Fault (List (Option Nat)) := do
  let count := (top - bottom + (bytesPerWord - 1)) / bytesPerWord
  let starts ← (List.range count).mapM fun k => c.objectStart (bottom + bytesPerWord * k)
  pure starts.eraseReps

end Collector

end MarkCompact
