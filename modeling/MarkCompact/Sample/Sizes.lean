import MarkCompact.ObjectModel
import MarkCompact.Table

/-!
# Objects known by their sizes

The simplest image of memory: it knows the size of the object at an address and nothing else.  Its
objects have no references.  It keeps what was filled with dead objects.
-/

namespace MarkCompact

/-- Sizes of objects by address; one word where nothing is known. -/
structure SizeImage where
  sizes : List (Nat × Nat) := []
  /-- The ranges that were filled, last first. -/
  fills : List (Nat × Nat) := []
  minimumWords : Nat := 1

namespace SizeImage

/-- The size of the object at `addr`. -/
def objectWords (image : SizeImage) (addr : Nat) : Nat :=
  ((image.sizes.find? (·.1 == addr)).map (·.2)).getD 1

/-- Changes the size of the object at `addr`. -/
def setSize (image : SizeImage) (addr words : Nat) : SizeImage :=
  { image with sizes := (addr, words) :: image.sizes }

instance : ObjectModel SizeImage where
  Slot := Empty
  objectWords := objectWords
  slots _ _ := pure []
  metadataSlot _ _ := none
  read _ slot := nomatch slot
  write image _ _ := image
  fillDead image addr words :=
    pure { image.setSize addr words with fills := (addr, words) :: image.fills }
  copyWords image _ _ _ := image
  minimumWords := SizeImage.minimumWords

end SizeImage

end MarkCompact
