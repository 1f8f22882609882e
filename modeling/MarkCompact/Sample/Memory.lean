import MarkCompact.ObjectModel
import MarkCompact.Table

/-!
# Self-describing objects in memory

A `MemoryImage` is the contents of a stretch of memory, word by word, zero where nothing was
written. Every object in it starts with a header word:

```
63            16 15      10 9        4 3     0 +----------------+----------+----------+-------+ |
size in words  |  narrow  |   wide   | flags | +----------------+----------+----------+-------+
```

Behind it come the metadata reference, if there is one, the wide references, the narrow references,
two to a word, and the payload.  A filler has only its header.

Main statements: `MemoryImage.wordAt_setWord`, a write changes one word, and
`Shape.ofHeader_header`, a shape is read back from its header.
-/

namespace MarkCompact

/-! ## Words of memory -/

/-- The words of memory from `start` on. -/
structure MemoryImage where
  start : Nat
  words : Table Nat
  codec : Codec

namespace MemoryImage

/-- Zeroed memory of `size` bytes. -/
def zeroed (start size : Nat) (codec : Codec) : MemoryImage :=
  ⟨start, .fresh (size / bytesPerWord) 0, codec⟩

/-- The number of the word at `addr`. -/
def indexOf (image : MemoryImage) (addr : Nat) : Nat :=
  (addr - image.start) / bytesPerWord

/-- The word at `addr`. -/
def wordAt (image : MemoryImage) (addr : Nat) : Nat :=
  image.words.get (image.indexOf addr)

/-- Writes the word at `addr`. -/
def setWord (image : MemoryImage) (addr word : Nat) : MemoryImage :=
  { image with words := image.words.set (image.indexOf addr) word }

/-- Whether `addr` is in the upper half of its word. -/
def isUpperHalf (image : MemoryImage) (addr : Nat) : Bool :=
  4 ≤ (addr - image.start) % bytesPerWord

/-- The half word at `addr`. -/
def halfAt (image : MemoryImage) (addr : Nat) : Nat :=
  if image.isUpperHalf addr then image.wordAt addr / narrowValues
  else image.wordAt addr % narrowValues

/-- Writes the half word at `addr`. -/
def setHalf (image : MemoryImage) (addr half : Nat) : MemoryImage :=
  let word := image.wordAt addr
  image.setWord addr
    (if image.isUpperHalf addr then half * narrowValues + word % narrowValues
     else word / narrowValues * narrowValues + half)

/-- The `count` words from `addr` on. -/
def wordsFrom (image : MemoryImage) (addr count : Nat) : List Nat :=
  (List.range count).map fun k => image.wordAt (addr + bytesPerWord * k)

/-- Writes words from `addr` on. -/
def setWords (image : MemoryImage) (addr : Nat) : List Nat → MemoryImage
  | [] => image
  | word :: rest => (image.setWord addr word).setWords (addr + bytesPerWord) rest

/-- Copies words; all are read before the first is written. -/
def copyWords (image : MemoryImage) (source destination count : Nat) : MemoryImage :=
  image.setWords destination (image.wordsFrom source count)

/-- A write changes the word that it names and no other. -/
theorem wordAt_setWord (image : MemoryImage) (a b word : Nat) :
    (image.setWord a word).wordAt b
      = if image.indexOf a = image.indexOf b ∧ image.indexOf a < image.words.size then word
        else image.wordAt b :=
  Table.get_set ..

end MemoryImage

/-! ## Shapes -/

/-- How many references and payload words an object has. -/
structure Shape where
  wide : Nat := 0
  narrow : Nat := 0
  payload : Nat := 0
  metadata : Bool := false
  deriving DecidableEq, Repr

/-- The most references of either kind that an object can have. -/
def maximumReferences : Nat := 63

/-- The flag of a filler. -/
def fillerFlag : Nat := 1

/-- The flag of an object with a metadata reference. -/
def metadataFlag : Nat := 2

/-- The number of values of the header fields below the size. -/
def sizeUnit : Nat := 65536

/-- Sizes below this number fit the header. -/
def sizeLimit : Nat := 281474976710656

namespace Shape

/-- The words in front of the payload. -/
def fixedWords (s : Shape) : Nat :=
  1 + s.metadata.toNat + s.wide + (s.narrow + 1) / 2

/-- The size of an object. -/
def totalWords (s : Shape) : Nat :=
  s.fixedWords + s.payload

/-- The size of an object, if it is a word. -/
def words (s : Shape) : Except Fault Nat := do
  let _ ← Word.add s.narrow 1
  Word.add s.fixedWords s.payload

/-- The header of an object; a size beyond the header's field loses its upper bits. -/
def header (s : Shape) : Nat :=
  ((if s.metadata then metadataFlag else 0) + s.wide * 16 + s.narrow * 1024
    + s.totalWords * sizeUnit) % wordValues

/-- The header, for a shape that is checked first. -/
def header? (s : Shape) : Except Fault Nat :=
  if s.wide ≤ maximumReferences ∧ s.narrow ≤ maximumReferences then pure s.header
  else throw (.tooManyReferences s.wide s.narrow s.payload s.metadata)

/-- The shape that a header says. -/
def ofHeader (header : Nat) : Except Fault Shape := do
  let s : Shape :=
    { wide := header / 16 % 64
      narrow := header / 1024 % 64
      metadata := header / metadataFlag % 2 = 1 }
  let payload ← Word.sub (header / sizeUnit) s.fixedWords
  pure { s with payload }

/-- The fields of a header are read back. -/
theorem header_fields {flags wide narrow total : Nat} (hf : flags < 4) (hw : wide < 64)
    (hn : narrow < 64) (ht : total < sizeLimit) :
    let header := (flags + wide * 16 + narrow * 1024 + total * sizeUnit) % wordValues
    header / 16 % 64 = wide ∧ header / 1024 % 64 = narrow ∧ header / metadataFlag % 2 = flags / 2
      ∧ header / sizeUnit = total := by
  simp only [sizeUnit, sizeLimit, wordValues, metadataFlag] at *
  omega

/-- A shape is read back from its header. -/
theorem ofHeader_header {s : Shape} (hw : s.wide ≤ maximumReferences)
    (hn : s.narrow ≤ maximumReferences) (ht : s.totalWords < sizeLimit) :
    ofHeader s.header = .ok s := by
  have hflags : (if s.metadata then metadataFlag else 0) < 4 := by
    split <;> decide
  have hfields := header_fields hflags (Nat.lt_succ_of_le hw) (Nat.lt_succ_of_le hn) ht
  simp only at hfields
  obtain ⟨h1, h2, h3, h4⟩ := hfields
  have hmeta : decide ((if s.metadata then metadataFlag else 0) / 2 = 1) = s.metadata := by
    cases s.metadata <;> rfl
  have hsub : Word.sub s.totalWords s.fixedWords = .ok s.payload := by
    have hle : s.fixedWords ≤ s.totalWords := Nat.le_add_right ..
    rw [Word.sub_eq hle]
    exact congrArg Except.ok (Nat.add_sub_cancel_left ..)
  have hfixed : ∀ p, fixedWords ⟨s.wide, s.narrow, p, s.metadata⟩ = s.fixedWords := fun _ => rfl
  simp only [ofHeader, header, h1, h2, h3, h4, hmeta, hfixed, hsub]
  rfl

end Shape

/-! ## Objects -/

/-- A place in memory that holds a reference. -/
inductive MemorySlot where
  | wide (addr : Nat)
  | narrow (addr : Nat)
  deriving DecidableEq, Repr

namespace MemoryImage

/-- The size of the object at `addr`. -/
def objectWords (image : MemoryImage) (addr : Nat) : Nat :=
  image.wordAt addr / sizeUnit

/-- Whether the object at `addr` is a filler. -/
def isFiller (image : MemoryImage) (addr : Nat) : Bool :=
  image.wordAt addr % 2 == fillerFlag

/-- The shape of the object at `addr`. -/
def shapeAt (image : MemoryImage) (addr : Nat) : Except Fault Shape :=
  Shape.ofHeader (image.wordAt addr)

/-- Writes the header of a fresh object and zeroes its body. -/
def placeFresh (image : MemoryImage) (addr : Nat) (s : Shape) : Except Fault MemoryImage := do
  let words ← s.words
  let header ← s.header?
  pure ((image.setWord addr header).setWords (addr + bytesPerWord) (List.replicate (words - 1) 0))

/-! ### Where an object's parts are -/

/-- The first wide reference. -/
def wideBase (s : Shape) (addr : Nat) : Nat :=
  addr + bytesPerWord * (1 + s.metadata.toNat)

/-- The first narrow reference. -/
def narrowBase (s : Shape) (addr : Nat) : Nat :=
  wideBase s addr + bytesPerWord * s.wide

/-- The first payload word. -/
def payloadBase (s : Shape) (addr : Nat) : Nat :=
  narrowBase s addr + bytesPerWord * ((s.narrow + 1) / 2)

/-- The slots of the wide references and then of the narrow ones. -/
def slotsOf (s : Shape) (addr : Nat) : List MemorySlot :=
  (List.range s.wide).map (fun k => .wide (wideBase s addr + bytesPerWord * k))
    ++ (List.range s.narrow).map fun k => .narrow (narrowBase s addr + 4 * k)

/-- The slot of wide reference `i`. -/
def wideSlot (image : MemoryImage) (addr i : Nat) : Except Fault MemorySlot := do
  let s ← image.shapeAt addr
  if i < s.wide then pure (.wide (wideBase s addr + bytesPerWord * i))
    else throw (.wideOutOfBounds i)

/-- The slot of narrow reference `i`. -/
def narrowSlot (image : MemoryImage) (addr i : Nat) : Except Fault MemorySlot := do
  let s ← image.shapeAt addr
  if i < s.narrow then pure (.narrow (narrowBase s addr + 4 * i)) else throw (.narrowOutOfBounds i)

/-- The address of payload word `i`. -/
def payloadAddr (image : MemoryImage) (addr i : Nat) : Except Fault Nat := do
  let s ← image.shapeAt addr
  if i < s.payload then pure (payloadBase s addr + bytesPerWord * i)
  else throw (.payloadOutOfBounds i)

/-- Payload word `i` of the object at `addr`. -/
def payload (image : MemoryImage) (addr i : Nat) : Except Fault Nat := do
  pure (image.wordAt (← image.payloadAddr addr i))

/-- Writes payload word `i` of the object at `addr`. -/
def setPayload (image : MemoryImage) (addr i word : Nat) : Except Fault MemoryImage := do
  pure (image.setWord (← image.payloadAddr addr i) word)

/-- The slot of the metadata reference, if the object has one. -/
def metadataSlot? (image : MemoryImage) (addr : Nat) : Option MemorySlot :=
  if image.wordAt addr / metadataFlag % 2 = 1 then some (.wide (addr + bytesPerWord)) else none

/-- What a slot holds. -/
def read (image : MemoryImage) : MemorySlot → Cell
  | .wide addr => .wide (image.wordAt addr)
  | .narrow addr => .narrow image.codec (image.halfAt addr)

/-- Changes what a slot holds. -/
def write (image : MemoryImage) : MemorySlot → Cell → MemoryImage
  | .wide addr, .wide target => image.setWord addr target
  | .narrow addr, .narrow _ raw => image.setHalf addr raw
  | _, _ => image

/-- Makes a slot refer to `target`. -/
def refer (image : MemoryImage) (slot : MemorySlot) (target : Nat) : Except Fault MemoryImage := do
  let cell ← (image.read slot).store target
  pure (image.write slot cell)

/-- Makes the metadata reference of the object at `addr` refer to `target`. -/
def setMetadata (image : MemoryImage) (addr target : Nat) : Except Fault MemoryImage :=
  match image.metadataSlot? addr with
  | some slot => image.refer slot target
  | none => throw (.noMetadataSlot addr)

/-- The metadata reference of the object at `addr`; null if it has none. -/
def metadata (image : MemoryImage) (addr : Nat) : Except Fault Nat :=
  match image.metadataSlot? addr with
  | some slot => (image.read slot).load
  | none => pure 0

/-- Overwrites `words` words at `addr` with one filler. -/
def fillDead (image : MemoryImage) (addr words : Nat) : Except Fault MemoryImage :=
  if words = 0 then throw .emptyFill
  else pure (image.setWord addr ((fillerFlag + words * sizeUnit) % wordValues))

instance : ObjectModel MemoryImage where
  Slot := MemorySlot
  objectWords := objectWords
  slots image addr := do
    let s ← image.shapeAt addr
    pure (slotsOf s addr)
  metadataSlot := metadataSlot?
  read := read
  write := write
  fillDead := fillDead
  copyWords := copyWords
  minimumWords _ := 1

/-! ### Whole objects -/

/-- Everything that an object holds. -/
inductive ObjectView where
  | filler (words : Nat)
  | object (words : Nat) (metadata : Option Nat) (wide narrow payload : List Nat)
  deriving DecidableEq, Repr

/-- What the object at `addr` holds. -/
def view (image : MemoryImage) (addr : Nat) : Except Fault ObjectView := do
  if image.isFiller addr then pure (.filler (image.objectWords addr))
  else
    let s ← image.shapeAt addr
    let narrow ← (List.range s.narrow).mapM fun k =>
      image.codec.decode (image.halfAt (narrowBase s addr + 4 * k))
    pure (.object (image.objectWords addr)
      ((image.metadataSlot? addr).map fun _ => image.wordAt (addr + bytesPerWord))
      (image.wordsFrom (wideBase s addr) s.wide) narrow
      (image.wordsFrom (payloadBase s addr) s.payload))

/-- The objects from `addr` on and below `top`, behind those of `found`, at most `tries` more of
them. A header that says no size is passed over as one word. -/
def collectObjects (image : MemoryImage) (top : Nat) :
    (tries addr : Nat) → (found : Array Nat) → Array Nat
  | 0, _, found => found
  | tries + 1, addr, found =>
    if top ≤ addr then found
    else
      image.collectObjects top tries (addr + bytesPerWord * max (image.objectWords addr) 1)
        (found.push addr)

/-- The objects between two addresses, found by their sizes. -/
def objectsBetween (image : MemoryImage) (bottom top : Nat) : Array Nat :=
  image.collectObjects top (top - bottom) bottom #[]

end MemoryImage

end MarkCompact
