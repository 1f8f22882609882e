import MarkCompact.Heap

/-!
# Adjusting references

After compaction has been planned, every reference is redirected to the new address of what it
refers to.  Null references and references outside of every space are left alone.  A weak reference
to a word that belongs to no marked object is cleared; interior references to live objects are
forwarded.
-/

namespace MarkCompact

/-- What happened to a reference. -/
inductive Adjusted where
  | untouched
  | forwarded
  | cleared
  deriving DecidableEq, Repr

namespace Heap

variable {μ : Type}

/-- Adjusts the reference in a slot. -/
def adjustCell (traversal : Traversal) (cell : Cell) : HeapAction μ (Adjusted × Cell) := do
  let addr ← check cell.load
  let h ← get
  if addr = 0 ∨ ¬h.isInSpace addr then pure (.untouched, cell)
  else
    let survives ← if traversal = .weak then check (h.isLiveWord addr) else pure true
    if survives then
      let target ← forward addr
      if target = addr then pure (.forwarded, cell)
      else
        let cell ← check (cell.store target)
        pure (.forwarded, cell)
    else
      let cell ← check (cell.store 0)
      pure (.cleared, cell)

/-- Adjusts a list of wide roots, and counts those that were cleared. -/
def adjustRoots (traversal : Traversal) :
    (roots adjusted : List Nat) → (cleared : Nat) → HeapAction μ (List Nat × Nat)
  | [], adjusted, cleared => pure (adjusted.reverse, cleared)
  | addr :: rest, adjusted, cleared => do
    let (verdict, cell) ← adjustCell traversal (.wide addr)
    let target ← check cell.load
    adjustRoots traversal rest (target :: adjusted)
      (if verdict = .cleared then cleared + 1 else cleared)

variable [ObjectModel μ]

/-- Adjusts slots of the image, one after the other. -/
def adjustSlots : List (ObjectModel.Slot μ) → HeapAction μ Unit
  | [] => pure ()
  | slot :: rest => do
    let h ← get
    let (_, cell) ← adjustCell .heap (ObjectModel.read h.image slot)
    onImage fun image => pure (ObjectModel.write image slot cell)
    adjustSlots rest

/-- Redirects every reference of the object that is now at `addr`, its metadata reference last. -/
def updateContents (addr : Nat) : HeapAction μ Unit := do
  modify fun h => { h with updates := (addr, h.image) :: h.updates }
  let h ← get
  let slots ← check (ObjectModel.slots h.image addr)
  adjustSlots slots
  let h ← get
  match ObjectModel.metadataSlot h.image addr with
  | none => pure ()
  | some slot =>
    let metadata ← check (ObjectModel.read h.image slot).load
    if metadata ≠ 0 then
      let target ← forwardMetadata metadata
      let cell ← check ((ObjectModel.read h.image slot).store target)
      onImage fun image => pure (ObjectModel.write image slot cell)

end Heap

end MarkCompact
