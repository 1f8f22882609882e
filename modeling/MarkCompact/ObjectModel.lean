import MarkCompact.Reference

/-!
# Object models

The collector knows nothing about the layout of objects.  An `ObjectModel` answers for an image of
the heap's memory how large an object is and where its references are, and moves and overwrites
words of the image.  All answers come from the object's own words: by the time an object is scanned
during compaction, what it refers to may have moved.
-/

namespace MarkCompact

/-- Layout and contents of the objects in an image `μ` of memory. -/
class ObjectModel (μ : Type) where
  /-- The name of a place in memory that holds a reference. -/
  Slot : Type
  /-- The size in words of the object at `addr`. -/
  objectWords : μ → (addr : Nat) → Nat
  /-- The references inside the object at `addr`, without its metadata reference. -/
  slots : μ → (addr : Nat) → Except Fault (List Slot)
  /-- The metadata reference of the object at `addr`, if it has one. -/
  metadataSlot : μ → (addr : Nat) → Option Slot
  /-- What a slot holds. -/
  read : μ → Slot → Cell
  /-- Changes what a slot holds. -/
  write : μ → Slot → Cell → μ
  /-- Overwrites `words` words at `addr` with dead objects. -/
  fillDead : μ → (addr words : Nat) → Except Fault μ
  /-- Copies `words` words from `source` to `destination`; the ranges may overlap. -/
  copyWords : μ → (source destination words : Nat) → μ
  /-- The size in words of the smallest object. -/
  minimumWords : μ → Nat

end MarkCompact
