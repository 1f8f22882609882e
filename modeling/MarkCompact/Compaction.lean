import MarkCompact.PrefixTask

/-!
# Compaction

A destination region is filled by the worker that claimed it, once its destination count is zero:
every region whose data would be overwritten has then been copied out.  `fillRegion` copies the live
words that are planned for the region from their source regions in ascending order, updates the
references of the objects that it places completely, and decrements the counts of the source regions
that it has used up; regions that become available are claimed and returned.  The references of an
object that is split over regions are updated after all regions are filled.

`compact` runs the tasks one at a time: the newest claimed region first, then the tasks of the dense
prefixes in order.  The result does not depend on that order.
-/

namespace MarkCompact

/-- What a compaction did. -/
structure CompactTotals where
  /-- Regions filled by copying. -/
  regionsFilled : Nat := 0
  /-- Words that changed their address. -/
  wordsCopied : Nat := 0
  /-- Regions of dense prefixes. -/
  prefixRegions : Nat := 0
  /-- Objects that were updated after all regions were filled. -/
  deferredObjects : Nat := 0
  deriving DecidableEq, Repr

/-- The progress of filling one region of a space. -/
structure Filling where
  space : Nat
  source : Nat
  destination : Nat
  /-- Words that the region still lacks. -/
  remaining : Nat
  copied : Nat
  deriving DecidableEq, Repr

/-- Goes past `words` words. -/
def Filling.advance (f : Filling) (words : Nat) : Filling :=
  { f with
    source := f.source + bytesPerWord * words
    destination := f.destination + bytesPerWord * words
    remaining := f.remaining - words }

namespace Heap

variable {μ : Type}

/-! ## Where copying starts -/

/-- The address of the word `count` live words past bit `beg`, counting objects that start before
bit `stop`, at most `tries` of them.  Past the end of an object it is the start of the next. -/
def skipLive (m : MarkBitmap) (stop : Nat) : (tries beg count : Nat) → Except Fault Nat
  | 0, _, _ => throw .tooFewToSkip
  | tries + 1, beg, count => do
    m.begins.checkRange beg stop
    let beg := m.begins.firstIn beg stop
    if stop ≤ beg then throw .tooFewToSkip
    if count = 0 then pure (m.addrOf beg)
    else
      let last := m.ends.firstIn beg m.size
      let words := last - beg + 1
      if count < words then pure (m.addrOf (beg + count))
      else skipLive m stop tries (last + 1) (count - words)

/-- The first word of region `r` that belongs at `destination`. -/
def firstSource (h : Heap μ) (destination r : Nat) : Except Fault Nat := do
  let a ← h.table.region r
  if destination < a.destination then throw (.wrongSource r)
  if a.dataWords = 0 then throw (.emptySource r)
  let beg := h.table.regionStart r
  let stop := beg + h.geometry.regionBytes
  if destination = a.destination then
    if a.partialWords = 0 then
      let addr ← h.bitmap.firstBegin beg stop
      if stop ≤ addr then throw (.noObjectStarts r) else pure addr
    else pure beg
  else
    let skip ← Word.delta destination a.destination
    if a.dataWords ≤ skip then throw (.wrongSource r)
    if skip ≤ a.partialWords then
      let addr := beg + bytesPerWord * skip
      if a.partialWords = skip then
        let addr ← h.bitmap.firstBegin addr stop
        if stop ≤ addr then throw (.wrongSource r) else pure addr
      else pure addr
    else
      let count := skip - a.partialWords
      if count = 0 then throw .nothingToSkip
      let stopBit ← h.bitmap.bitOf stop
      let begBit ← h.bitmap.bitOf (beg + bytesPerWord * a.partialWords)
      let addr ← skipLive h.bitmap stopBit (stopBit - begBit + 2) begBit count
      if stop ≤ addr then throw (.wrongSource r) else pure addr

/-! ## Source regions -/

/-- The first of `count` regions from `r` on that has data. -/
def regionWithData? (t : RegionTable) : (count r : Nat) → Option Nat
  | 0, _ => none
  | count + 1, r =>
    if (t.regions.get r).dataWords = 0 then regionWithData? t count (r + 1) else some r

/-- Moves on to the next region with data at or after the region of `stop`. -/
def nextSource (h : Heap μ) (spaceTop stop : Nat) (f : Filling) : Except Fault (Nat × Filling) := do
  let topRegion ← h.table.regionUpTo spaceTop
  let first ← h.table.regionUpTo stop
  match regionWithData? h.table (topRegion - first) first with
  | none => throw (.noSourceAfter stop)
  | some r =>
    let start := h.table.regionStart r
    pure (r, if f.source < start then { f with source := start } else f)

/-- Decrements the destination counts of `count` regions from `r` on, and claims those below
`claimEnd` that become available.  Claimed regions are added to a list, the last one first. -/
def releaseRegions (claimEnd : Nat) :
    (count r : Nat) → (claimed : List Nat) → HeapAction μ (List Nat)
  | 0, _, claimed => pure claimed
  | count + 1, r, claimed => do
    let a ← check ((← get).table.region r)
    if a.dataWords = 0 then check (throw (.sourceWithoutData r))
    let a ← check a.decrement
    if r < claimEnd ∧ a.isAvailable then
      let a ← check a.claim.2.notePushed
      modify fun h => { h with table := h.table.setRegion r a }
      releaseRegions claimEnd count (r + 1) (r :: claimed)
    else
      modify fun h => { h with table := h.table.setRegion r a }
      releaseRegions claimEnd count (r + 1) claimed

/-- Releases the source regions from `beg` up to the one that an interval ending at `stop`
reaches. -/
def release (claimEnd beg stop : Nat) (claimed : List Nat) : HeapAction μ (List Nat) := do
  let last ← check ((← get).table.regionUpTo stop)
  releaseRegions claimEnd (last - beg) beg claimed

variable [ObjectModel μ]

/-! ## Copying -/

/-- Copies `words` words, unless they stay where they are, and goes past them. -/
def copyWords (words : Nat) (f : Filling) : HeapAction μ Filling := do
  if f.source = f.destination then pure (f.advance words)
  else
    onImage fun image => pure (ObjectModel.copyWords image f.source f.destination words)
    pure { f.advance words with copied := f.copied + words }

/-- Copies the rest of the object that the source lies in, or as much of it as fits. -/
def copyPartial (f : Filling) : HeapAction μ Filling := do
  let h ← get
  let stop := min (f.source + bytesPerWord * f.remaining) (h.covered.start + h.covered.size)
  let last ← check (h.bitmap.firstEnd f.source stop)
  let words ←
    if last < stop then do
      let inner ← check (Word.delta last f.source)
      pure (inner + 1)
    else pure f.remaining
  copyWords words f

/-- Places the object at `o`, which goes to the destination, if it fits. -/
def placeObject (o : Run) (f : Filling) : HeapAction μ (WalkStatus × Filling) := do
  let f := { f with source := o.start }
  let target ← forward o.start
  if target ≠ f.destination then check (throw (.wrongDestination o.start))
  if f.remaining < o.words then pure (.wouldOverflow, f)
  else
    onSpace f.space (·.recordStart f.destination)
    let moved ← copyWords o.words f
    updateContents f.destination
    pure (if moved.remaining = 0 then .full else .incomplete, moved)

/-- Places the object at the source, which starts before `stop` and ends past it, below
`spaceTop`. -/
def placeStraddler (spaceTop stop : Nat) (f : Filling) : HeapAction μ (WalkStatus × Filling) := do
  let straddler := f.source
  if stop ≤ straddler then check (throw .straddlerPastEnd)
  let h ← get
  let limit := min (straddler + bytesPerWord * f.remaining) spaceTop
  let last ← check (h.bitmap.firstEnd straddler limit)
  if last < limit then
    let inner ← check (Word.delta last straddler)
    let (status, f) ← placeObject ⟨straddler, inner + 1⟩ f
    if status = .wouldOverflow then check (throw .straddlerOverflows)
    pure (status, f)
  else
    if spaceTop ≤ limit then check (throw (.crossesSpaceTop straddler))
    pure (.wouldOverflow, f)

/-- Places what starts from the source on and before `stop`. -/
def placeUpTo (spaceTop stop : Nat) (f : Filling) : HeapAction μ (WalkStatus × Filling) := do
  let h ← get
  let walk ← check (h.bitmap.iterate (n := StateT Filling (HeapAction μ)) placeObject f.source stop)
  let (outcome, f) ← walk f
  let f := { f with source := outcome.source.getD f.source }
  if outcome.status = .incomplete then placeStraddler spaceTop stop f else pure (outcome.status, f)

/-! ## Filling a region -/

/-- The fixed data of filling region `region`. -/
structure FillPlan where
  region : Nat
  /-- Regions below this number are claimed when they become available. -/
  claimEnd : Nat
  spaceTop : Nat

omit [ObjectModel μ] in
/-- The region is filled; `deferred` is the new address of an object that was split, or zero. -/
def finishRegion (plan : FillPlan) (deferred : Nat) : HeapAction μ Unit :=
  onTable fun t => t.update plan.region fun a => { a with deferred }.complete

/-- Fills the rest of a region from source region `r` on, using at most `tries` source regions. -/
def fillFrom (plan : FillPlan) : (tries r : Nat) → (claimed : List Nat) → Filling →
    HeapAction μ (List Nat × Nat)
  | 0, _, claimed, f => pure (claimed, f.copied)
  | tries + 1, r, claimed, f => do
    let stop := min (← check ((← get).table.alignUp (f.source + bytesPerWord))) plan.spaceTop
    match ← placeUpTo plan.spaceTop stop f with
    | (.wouldOverflow, f) =>
      let done ← copyWords f.remaining f
      let claimed ← release plan.claimEnd r done.source claimed
      finishRegion plan f.destination
      pure (claimed, done.copied)
    | (.full, f) =>
      let claimed ← release plan.claimEnd r f.source claimed
      finishRegion plan 0
      pure (claimed, f.copied)
    | (_, f) =>
      let claimed ← release plan.claimEnd r stop claimed
      let (r, f) ← check ((← get).nextSource plan.spaceTop stop f)
      fillFrom plan tries r claimed f

/-- Fills a region whose first word lies inside an object that starts elsewhere. -/
def fillFromInside (plan : FillPlan) (r : Nat) (f : Filling) : HeapAction μ (List Nat × Nat) := do
  let start := f.source
  let f ← copyPartial f
  if f.remaining = 0 then
    let claimed ← release plan.claimEnd r f.source []
    finishRegion plan 0
    pure (claimed, f.copied)
  else
    let t := (← get).table
    let stop ← check (t.alignDown f.source)
    let tries := t.geometry.regionCount + 1
    if (← check (t.alignDown start)) = stop then fillFrom plan tries r [] f
    else
      let claimed ← release plan.claimEnd r stop []
      let (r, f) ← check ((← get).nextSource plan.spaceTop stop f)
      fillFrom plan tries r claimed f

/-- Fills the claimed region `region` from its source regions.  The answer lists the regions that
became available and were claimed, the last one first, and counts the words that moved. -/
def fillRegion (region : Nat) : HeapAction μ (List Nat × Nat) := do
  let h ← get
  let a ← check (h.table.region region)
  let destination := h.table.regionStart region
  match h.spaceOf? destination with
  | none => check (throw (.inNoSpace destination))
  | some i =>
    let s ← check (h.space i)
    if s.newTop ≤ destination then check (throw (.aboveNewTop region s.name))
    let room ← check (Word.delta s.newTop destination)
    let claimEnd ← check (h.table.regionUpTo s.newTop)
    let plan : FillPlan := ⟨region, claimEnd, s.top⟩
    let source ← check (h.firstSource destination a.source)
    let f : Filling := ⟨i, source, destination, min room h.geometry.regionWords, 0⟩
    -- A region that is copied into itself does not count itself as a destination.
    let r := if a.source = region then a.source + 1 else a.source
    if ← check (h.bitmap.isMarked source) then fillFrom plan (h.geometry.regionCount + 1) r [] f
    else fillFromInside plan r f

/-! ## The phase -/

omit [ObjectModel μ] in
/-- Claims those of `count` regions below `r`, downwards, that can be filled right away.  The answer
lists them in the order in which they were claimed. -/
def claimReady : (count r : Nat) → (claimed : List Nat) → HeapAction μ (List Nat)
  | 0, _, claimed => pure claimed
  | count + 1, r, claimed => do
    let a ← check ((← get).table.region (r - 1))
    match a.claimAlone with
    | (true, a) =>
      let a ← check a.notePushed
      modify fun h => { h with table := h.table.setRegion (r - 1) a }
      claimReady count (r - 1) ((r - 1) :: claimed)
    | (false, _) => claimReady count (r - 1) claimed

omit [ObjectModel μ] in
/-- Claims the destination regions of some spaces that can be filled right away, highest addresses
first. -/
def claimReadySpaces : List Space → (claimed : List Nat) → HeapAction μ (List Nat)
  | [], claimed => pure claimed
  | s :: rest, claimed => do
    let t := (← get).table
    let beg ← check (t.regionOf s.densePrefix)
    let stop ← check (t.regionUpTo s.newTop)
    let claimed ← claimReady (stop - beg) stop claimed
    claimReadySpaces rest claimed

/-- Runs claimed regions and prefix tasks until none is left, at most `fuel` of them. -/
def runTasks : (fuel : Nat) → (regions : List Nat) → (tasks : List PrefixTask) → CompactTotals →
    HeapAction μ CompactTotals
  | 0, _, _, totals => pure totals
  | fuel + 1, r :: regions, tasks, totals => do
    let (claimed, copied) ← fillRegion r
    runTasks fuel (claimed ++ regions) tasks
      { totals with
        regionsFilled := totals.regionsFilled + 1
        wordsCopied := totals.wordsCopied + copied }
  | fuel + 1, [], task :: tasks, totals => do
    updatePrefix task
    runTasks fuel [] tasks
      { totals with
        prefixRegions := totals.prefixRegions + (task.regionEnd - task.regionBeg) }
  | _ + 1, [], [], totals => pure totals

/-- Updates the object that was split at each of `count` regions from `r` on, if there is one, and
counts them. -/
def updateDeferredIn (i : Nat) : (count r updated : Nat) → HeapAction μ Nat
  | 0, _, updated => pure updated
  | count + 1, r, updated => do
    let a ← check ((← get).table.region r)
    if a.deferred = 0 then updateDeferredIn i count (r + 1) updated
    else
      updateInPlace i a.deferred
      updateDeferredIn i count (r + 1) (updated + 1)

/-- Updates the objects that were split over destination regions in the spaces from `i` on. -/
def updateDeferred : List Space → (i updated : Nat) → HeapAction μ Nat
  | [], _, updated => pure updated
  | s :: rest, i, updated => do
    let t := (← get).table
    let beg ← check (t.regionOf s.densePrefix)
    let stop ← check (t.regionUpTo s.newTop)
    let updated ← updateDeferredIn i (stop - beg) beg updated
    updateDeferred rest (i + 1) updated

/-- Compacts every space as planned. -/
def compact (workers tasksPerWorker : Nat) : HeapAction μ CompactTotals := do
  let h ← get
  let tasks ← check (h.prefixTasks workers tasksPerWorker)
  let ready ← claimReadySpaces h.spaces.reverse []
  report ⟨.compaction, .debug,
    s!"{tasks.length} dense prefix tasks, {ready.length} initial region draining tasks on {
      workers} workers"⟩
  let totals ← runTasks (h.geometry.regionCount + tasks.length + 1) ready tasks {}
  let h ← get
  let deferred ← updateDeferred h.spaces 0 0
  pure { totals with deferredObjects := deferred }

end Heap

end MarkCompact
