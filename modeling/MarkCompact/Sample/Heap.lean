import MarkCompact.Collector
import MarkCompact.Sample.Memory

/-!
# A heap of self-describing objects

Zeroed memory carved into region-aligned spaces, back to back, with a bump allocator on top of each
space.  The memory comes in whole pages, so a few words may follow the last space.
-/

namespace MarkCompact

/-- What a space is for. -/
inductive SpaceKind where
  | old
  | perm
  deriving DecidableEq, Repr

/-- A space to be laid out: so many regions for objects of a kind. -/
structure SpacePlan where
  name : String
  kind : SpaceKind
  regions : Nat
  deriving DecidableEq, Repr

/-- Memory and the spaces in it; the memory starts where the covered range starts and may end behind
it. -/
structure SampleHeap where
  covered : Extent
  spaces : List SpaceConfig
  image : MemoryImage

namespace SampleHeap

/-- The total number of regions. -/
def totalRegions : List SpacePlan → (before : Nat) → Except Fault Nat
  | [], before => pure before
  | plan :: rest, before => do
    let sum ← Word.add before plan.regions
    totalRegions rest sum

/-- Spaces laid out one behind the other from `bottom` on. -/
def layOut (regionBytes : Nat) : (bottom : Nat) → List SpacePlan → List SpaceConfig
  | _, [] => []
  | bottom, plan :: rest =>
    let limit := bottom + plan.regions * regionBytes
    let config := match plan.kind with
      | .old => SpaceConfig.old plan.name bottom limit
      | .perm => SpaceConfig.perm plan.name bottom limit
    config :: layOut regionBytes limit rest

/-- Reserves memory at `start` for the spaces that are planned, at the region size of the
settings. -/
def create (settings : Settings) (start : Nat) (plans : List SpacePlan) :
    Except SetupError SampleHeap := do
  let regionWords ← Word.shiftLeft 1 settings.regionLog
  let regionBytes ← Word.mul regionWords bytesPerWord
  let regions ← totalRegions plans 0
  let bytes := regions * regionBytes
  if wordValues ≤ bytes then refuse (.tooManyRegions regions)
  let reserved ← reserve "sample heap" bytes regionBytes
  let codec ← Codec.ofHeap start
  pure ⟨⟨start, bytes⟩, layOut regionBytes start plans, .zeroed start reserved codec⟩

/-- A collector over the memory. -/
def collector (h : SampleHeap) (settings : Settings) (spaces : List SpaceConfig) :
    Except SetupError (Collector MemoryImage) :=
  Collector.create settings h.covered spaces h.image

/-- Allocates a zeroed object of shape `s` at the top of space `i`; `none` if the space is full. -/
def allocate (i : Nat) (s : Shape) : HeapAction MemoryImage (Option Nat) := do
  let h ← get
  let space ← Heap.check (h.space i)
  let words ← Heap.check s.words
  let bytes ← Heap.check (Word.mul words bytesPerWord)
  let newTop := space.top + bytes
  if wordValues ≤ newTop ∨ space.limit < newTop then pure none
  else
    Heap.onImage (·.placeFresh space.top s)
    Heap.onSpace i (·.setTop newTop)
    pure (some space.top)

end SampleHeap

end MarkCompact
