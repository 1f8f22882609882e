import MarkCompact.Heap
import MarkCompact.WorkQueue

/-!
# Marking

Marking finds the objects that can be reached from the strong roots through references and metadata
references into a space.  A reached object is marked once; whoever marks it puts it on a list of
pending objects, and scanning a pending object visits its slots.  Weak roots are not followed.

`scanObject` is one step.  Any order of steps marks the same objects; `Pending` is the order in
which one worker goes: a short local segment first, then the worker's own overflow, both newest
first, then the shared queue, oldest first.  A busy worker hands half of its segment to the shared
queue.
-/

namespace MarkCompact

/-! ## Objects waiting to be scanned -/

/-- How many objects a local segment holds. -/
def segmentSize : Nat := 64

/-- How often a worker marks before it shares. -/
def shareInterval : Nat := 256

/-- The least number of objects in a segment that is worth sharing. -/
def shareMinimum : Nat := 4

/-- The objects that were marked and not scanned yet. -/
structure Pending where
  segment : List Nat := []
  overflow : List Nat := []
  shared : Fifo Nat := {}
  /-- Objects put into the segment since the worker last shared. -/
  marked : Nat := 0

namespace Pending

/-- All pending objects. -/
def toList (p : Pending) : List Nat :=
  p.segment ++ p.overflow ++ p.shared.toList

/-- Adds a root. -/
def addRoot (p : Pending) (addr : Nat) : Pending :=
  { p with shared := p.shared.push addr }

/-- Moves objects from the segment to the shared queue until at most `target` are left. -/
def share (target : Nat) : (segment : List Nat) → Fifo Nat → List Nat × Fifo Nat
  | [], shared => ([], shared)
  | addr :: rest, shared =>
    if target < rest.length + 1 then share target rest (shared.push addr)
      else (addr :: rest, shared)

/-- Adds an object that a scan found. -/
def add (p : Pending) (addr : Nat) : Pending :=
  if p.segment.length < segmentSize then
    let segment := addr :: p.segment
    if shareInterval < p.marked + 1 then
      if shareMinimum < segment.length then
        let (segment, shared) := share (segment.length / 2) segment p.shared
        { p with segment, shared, marked := 0 }
      else { p with segment, marked := 0 }
    else { p with segment, marked := p.marked + 1 }
  else { p with overflow := addr :: p.overflow }

/-- Whether both queues are empty, that of the worker and the shared one. -/
def queuesEmpty (p : Pending) : Bool :=
  p.overflow.isEmpty && p.shared.toList.isEmpty

/-- Takes the next object. -/
def next? (p : Pending) : Option (Nat × Pending) :=
  match p.segment with
  | addr :: segment => some (addr, { p with segment })
  | [] =>
    match p.overflow with
    | addr :: overflow => some (addr, { p with overflow })
    | [] => p.shared.pop?.map fun (addr, shared) => (addr, { p with shared })

end Pending

/-! ## Marking one object -/

/-- Objects and words that were marked. -/
structure MarkTotals where
  objects : Nat := 0
  words : Nat := 0
  deriving DecidableEq, Repr

namespace MarkTotals

/-- Counts one object. -/
def count (t : MarkTotals) (words : Nat) : MarkTotals :=
  ⟨t.objects + 1, t.words + words⟩

end MarkTotals

namespace Heap

variable {μ : Type} [ObjectModel μ]

/-- Marks the object at `addr`, if it is in a space and was not marked; the size that was marked. -/
def markObject (addr : Nat) : HeapAction μ (Option Nat) := do
  let h ← get
  if addr = 0 ∨ ¬h.isInSpace addr then pure none
  else
    let words := ObjectModel.objectWords h.image addr
    let (fresh, bitmap) ← check (h.bitmap.mark addr words)
    set { h with bitmap }
    pure (if fresh then some words else none)

/-- Marks the referents of slots; those that were unmarked become pending. -/
def visitSlots :
    List (ObjectModel.Slot μ) → Pending × MarkTotals → HeapAction μ (Pending × MarkTotals)
  | [], state => pure state
  | slot :: rest, (pending, totals) => do
    let h ← get
    let addr ← check (ObjectModel.read h.image slot).load
    match ← markObject addr with
    | none => visitSlots rest (pending, totals)
    | some words => visitSlots rest (pending.add addr, totals.count words)

/-- Visits the references of the marked object at `addr`, its metadata reference last. -/
def scanObject (addr : Nat) (state : Pending × MarkTotals) :
    HeapAction μ (Pending × MarkTotals) := do
  let h ← get
  let slots ← check (ObjectModel.slots h.image addr)
  let state ← visitSlots slots state
  visitSlots (ObjectModel.metadataSlot h.image addr).toList state

/-! ## The phase -/

/-- Marks the strong roots. -/
def markRoots : (roots : List Nat) → Pending × MarkTotals → HeapAction μ (Pending × MarkTotals)
  | [], state => pure state
  | addr :: rest, (pending, totals) => do
    match ← markObject addr with
    | none => markRoots rest (pending, totals)
    | some words => markRoots rest (pending.addRoot addr, totals.count words)

/-- Scans at most `fuel` pending objects. -/
def scanPending : (fuel : Nat) → Pending × MarkTotals → HeapAction μ (Pending × MarkTotals)
  | 0, state => pure state
  | fuel + 1, (pending, totals) =>
    match pending.next? with
    | none => pure (pending, totals)
    | some (addr, pending) => do
      let state ← scanObject addr (pending, totals)
      scanPending fuel state

/-- Marks everything that can be reached from the roots.  No more objects are scanned than the
bitmap has bits. -/
def markLive (roots : List Nat) : HeapAction μ MarkTotals := do
  let h ← get
  let state ← markRoots roots ({}, {})
  let (pending, totals) ← scanPending (h.bitmap.size + 1) state
  if !pending.queuesEmpty then check (throw .queuesNotEmpty)
  pure totals

end Heap

end MarkCompact
