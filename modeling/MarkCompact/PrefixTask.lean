import MarkCompact.Adjust
import MarkCompact.DensePrefix
import MarkCompact.MarkBitmap.Walk

/-!
# Updating the dense prefix

Objects of a dense prefix stay, but their references are updated and the dead space between them
becomes filler objects.  The regions of a prefix are divided into runs, each a task of its own.
`PrefixTask.divide` gives one task per worker for a small prefix and several for a large one; what
does not divide evenly goes into a last task.

An object, or dead space, that reaches over the border of two tasks belongs to the task that owns
its start.
-/

namespace MarkCompact

/-- The regions of a dense prefix from `regionBeg` up to, not including, `regionEnd`. -/
structure PrefixTask where
  space : Nat
  regionBeg : Nat
  regionEnd : Nat
  deriving DecidableEq, Repr

namespace PrefixTask

/-! ## Dividing a prefix -/

/-- At most `count` tasks of `size` regions from `beg` on; the last one ends at `stop`. -/
def cut (space size stop : Nat) : (count beg : Nat) → List PrefixTask
  | 0, beg => if beg < stop then [⟨space, beg, stop⟩] else []
  | count + 1, beg =>
    if stop ≤ beg then []
    else
      let next := min (beg + size) stop
      ⟨space, beg, next⟩ :: cut space size stop count next

/-- The tasks for the regions from `beg` up to, not including, `stop`. -/
def divide (workers tasksPerWorker space beg stop : Nat) : Except Fault (List PrefixTask) := do
  let total ← Word.sub stop beg
  let many ← Word.mul workers (max tasksPerWorker 1)
  let count := if total ≤ many then workers else many
  let share ← Word.div total count
  pure (cut space (max share 1) stop count beg)

end PrefixTask

namespace Heap

variable {μ : Type}

/-- The tasks for the dense prefix of space `i`. -/
def prefixTasksOf (h : Heap μ) (workers tasksPerWorker i : Nat) (s : Space) :
    Except Fault (List PrefixTask) := do
  if s.densePrefix = s.bottom then pure []
  else
    let stop ← h.table.regionOf s.densePrefix
    let beg ← h.table.regionOf s.bottom
    if s.densePrefix ≠ s.limit then
      let a ← h.table.region stop
      if ¬(a.isAvailable ∨ a.isClaimed) then throw .boundaryNotReady
    PrefixTask.divide workers tasksPerWorker i beg stop

/-- The tasks for the dense prefixes of all spaces. -/
def prefixTasks (h : Heap μ) (workers tasksPerWorker : Nat) : Except Fault (List PrefixTask) := do
  let tasks ← h.spaces.zipIdx.mapM fun (s, i) => h.prefixTasksOf workers tasksPerWorker i s
  pure tasks.flatten

/-! ## Running a task -/

/-- Claims `count` regions of a dense prefix from `r` on. -/
def claimPrefix : (count r : Nat) → HeapAction μ Unit
  | 0, _ => pure ()
  | count + 1, r => do
    let a ← check ((← get).table.region r)
    match a.claim with
    | (true, a) => modify fun h => { h with table := h.table.setRegion r a }
    | (false, _) => check (throw (.prefixRegionClaimed r))
    claimPrefix count (r + 1)

/-- Completes `count` regions from `r` on. -/
def completePrefix : (count r : Nat) → HeapAction μ Unit
  | 0, _ => pure ()
  | count + 1, r => do
    onTable fun t => t.update r (·.complete)
    completePrefix count (r + 1)

/-- Where a task's own objects and gaps begin: past the object, or the gap, that reaches in from the
left. -/
def ownStart (h : Heap μ) (s : Space) (task : PrefixTask) : Except Fault Nat := do
  let beg := h.table.regionStart task.regionBeg
  let stop := h.table.regionStart task.regionEnd
  if beg = s.bottom then pure beg
  else
    let a ← h.table.region task.regionBeg
    if a.partialWords ≠ 0 then h.table.partialEnd task.regionBeg
    else
      let bit ← h.bitmap.bitOf beg
      if ← deadSpaceCrosses a bit h.bitmap then h.bitmap.firstBegin beg stop else pure beg

variable [ObjectModel μ]

/-- Updates an object that stays. -/
def updateInPlace (i addr : Nat) : HeapAction μ Unit := do
  onSpace i (·.recordStart addr)
  updateContents addr

/-- Records the starts of the fillers from `addr` up to, not including, `stop`, at most `tries` of
them. -/
def recordFillers (i stop : Nat) : (tries addr : Nat) → HeapAction μ Unit
  | 0, _ => pure ()
  | tries + 1, addr => do
    if addr < stop then
      onSpace i (·.recordStart addr)
      let h ← get
      recordFillers i stop tries (addr + bytesPerWord * ObjectModel.objectWords h.image addr)

/-- Turns a gap into fillers. -/
def fillGap (i : Nat) (gap : Run) : HeapAction μ Unit := do
  onImage fun image => ObjectModel.fillDead image gap.start gap.words
  recordFillers i gap.stop gap.words gap.start

/-- Updates the objects of a task and fills its gaps. -/
def updatePrefix (task : PrefixTask) : HeapAction μ Unit := do
  let h ← get
  let s ← check (h.space task.space)
  claimPrefix (task.regionEnd - task.regionBeg) task.regionBeg
  let beg ← check (h.ownStart s task)
  let stop := h.table.regionStart task.regionEnd
  if beg < stop then
    let visit (o : Run) : HeapAction μ WalkStatus := do
      updateInPlace task.space o.start
      pure .incomplete
    let walk ← check (h.bitmap.iterateWithDead visit (fillGap task.space) beg stop s.densePrefix)
    let outcome ← walk
    match outcome.status, outcome.source with
    | .incomplete, some straddler => updateInPlace task.space straddler
    | _, _ => pure ()
  completePrefix (task.regionEnd - task.regionBeg) task.regionBeg

end Heap

end MarkCompact
