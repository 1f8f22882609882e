import Mathlib.Logic.Relation
import Mathlib.Order.Interval.Set.Basic
import MarkCompact.Proofs.Redirecting

/-!
# The layout of an object

The header of an object says which parts the object has and, since it says how many there are of
each kind, where they are.  Wide references, narrow references and payload words lie in areas of
their own, one behind the other, and the accessors of an object compute where an area begins
independently of each other.

Main statements: `Shape.placeOf_not_meets` (parts have no byte in common),
`MemoryImage.HasObject.slotAt_eq_ok_iff` (what the accessors find),
`MemoryImage.HasObject.cellAt_overwrites` (what overwriting a part does) and
`MemoryImage.placeFresh_unambiguous` (a fresh object is read back, however its parts are
overwritten).
-/

namespace MarkCompact

variable {e : Extent} {s : Shape} {a i x : ℕ}

/-! ## Parts -/

/-- A part of an object. -/
inductive Part where
  | header
  | metadata
  | wide (i : ℕ)
  | narrow (i : ℕ)
  | payload (i : ℕ)
  deriving DecidableEq

variable {part other : Part}

namespace Shape

/-- Objects of this shape have the part. -/
def Has (s : Shape) : Part → Prop
  | .header => True
  | .metadata => s.metadata = true
  | .wide i => i < s.wide
  | .narrow i => i < s.narrow
  | .payload i => i < s.payload

/-- The place of a part of an object at word `a`. -/
def placeOf (s : Shape) (a : ℕ) : Part → Place
  | .header => .word a
  | .metadata => .word (a + 1)
  | .wide i => .word (a + s.wideStart + i)
  | .narrow i => .half (2 * (a + s.narrowStart) + i)
  | .payload i => .word (a + s.fixedWords + i)

end Shape

/-- The number of the area that the part lies in. -/
def Part.area : Part → ℕ
  | .header => 0
  | .metadata => 1
  | .wide _ => 2
  | .narrow _ => 3
  | .payload _ => 4

namespace Shape

lemma fixedWords_pos (s : Shape) : 0 < s.fixedWords :=
  lt_of_lt_of_le s.wideStart_pos (le_trans (Nat.le_add_right ..) (Nat.le_add_right ..))

lemma header_lt (s : Shape) : s.header < wordValues :=
  Nat.mod_lt _ (by decide)

/-- The header of an object is not that of a filler. -/
lemma header_mod_two (s : Shape) : s.header % 2 = 0 := by
  simp only [header, metadataFlag, sizeUnit, wordValues]
  split
  · omega
  · omega

/-- The first word of an area, counted from the start of the object. -/
def areaStart (s : Shape) : ℕ → ℕ
  | 0 => 0
  | 1 => 1
  | 2 => s.wideStart
  | 3 => s.narrowStart
  | 4 => s.fixedWords
  | _ => s.totalWords

lemma areaStart_le_succ (s : Shape) (n : ℕ) : s.areaStart n ≤ s.areaStart (n + 1) := by
  match n with
  | 0 => exact Nat.zero_le 1
  | 1 => exact s.wideStart_pos
  | 2 => exact Nat.le_add_right ..
  | 3 =>
    show s.narrowStart ≤ s.fixedWords
    rw [fixedWords_eq]
    exact Nat.le_add_right ..
  | 4 => exact s.fixedWords_le
  | _ + 5 => exact le_rfl

lemma areaStart_mono (s : Shape) : Monotone s.areaStart :=
  monotone_nat_of_le_succ s.areaStart_le_succ

/-- A part that the object has lies in its area. -/
lemma index_placeOf (h : s.Has part) (a : ℕ) :
    a + s.areaStart part.area ≤ (s.placeOf a part).index
      ∧ (s.placeOf a part).index < a + s.areaStart (part.area + 1) := by
  have hfixed := s.fixedWords_eq
  cases part with
  | header => exact ⟨le_rfl, Nat.lt_succ_self a⟩
  | metadata =>
    have hmetadata : s.metadata = true := h
    simp only [placeOf, Place.index, Part.area, areaStart, wideStart, hmetadata, Bool.toNat_true]
    omega
  | wide i =>
    have hi : i < s.wide := h
    simp only [placeOf, Place.index, Part.area, areaStart, narrowStart]
    omega
  | narrow i =>
    have hi : i < s.narrow := h
    simp only [placeOf, Place.index, Part.area, areaStart]
    omega
  | payload i =>
    have hi : i < s.payload := h
    simp only [placeOf, Place.index, Part.area, areaStart, totalWords]
    omega

/-- Every part lies in the object. -/
lemma index_placeOf_bounds (h : s.Has part) (a : ℕ) :
    a ≤ (s.placeOf a part).index ∧ (s.placeOf a part).index < a + s.totalWords := by
  obtain ⟨hle, hlt⟩ := index_placeOf h a
  have hlast : s.areaStart (part.area + 1) ≤ s.areaStart 5 := by
    refine s.areaStart_mono ?_
    cases part <;> simp [Part.area]
  have htotal : s.areaStart 5 = s.totalWords := rfl
  omega

/-- Only the header lies in the first word. -/
lemma lt_index_placeOf (h : s.Has part) (hne : part ≠ .header) (a : ℕ) :
    a < (s.placeOf a part).index := by
  have harea : 1 ≤ part.area := by
    cases part with
    | header => exact absurd rfl hne
    | _ => simp [Part.area]
  have hle := s.areaStart_mono harea
  have hone : s.areaStart 1 = 1 := rfl
  have hindex := (index_placeOf h a).1
  omega

/-- Different parts have no half word in common. -/
theorem placeOf_not_meets (h : s.Has part) (h' : s.Has other) (hne : part ≠ other) (a : ℕ) :
    ¬(s.placeOf a part).Meets (s.placeOf a other) := by
  obtain ⟨hle, hlt⟩ := index_placeOf h a
  obtain ⟨hle', hlt'⟩ := index_placeOf h' a
  rcases Nat.lt_trichotomy part.area other.area with harea | harea | harea
  · have hmono : s.areaStart (part.area + 1) ≤ s.areaStart other.area := s.areaStart_mono harea
    exact not_meets_of_index (by omega)
  · -- Parts of one area are told apart by their number.
    cases part with
    | header =>
      cases other with
      | header => exact absurd rfl hne
      | _ => simp [Part.area] at harea
    | metadata =>
      cases other with
      | metadata => exact absurd rfl hne
      | _ => simp [Part.area] at harea
    | wide i =>
      cases other with
      | wide j =>
        exact not_meets_of_index fun heq => hne (congrArg Part.wide (Nat.add_left_cancel heq))
      | _ => simp [Part.area] at harea
    | narrow i =>
      cases other with
      | narrow j => exact fun heq => hne (congrArg Part.narrow (Nat.add_left_cancel heq))
      | _ => simp [Part.area] at harea
    | payload i =>
      cases other with
      | payload j =>
        exact not_meets_of_index fun heq => hne (congrArg Part.payload (Nat.add_left_cancel heq))
      | _ => simp [Part.area] at harea
  · have hmono : s.areaStart (other.area + 1) ≤ s.areaStart part.area := s.areaStart_mono harea
    exact not_meets_of_index (by omega)

end Shape

/-! ## Bytes -/

/-- The addresses of the bytes that a slot fills. -/
def MemorySlot.bytes : MemorySlot → Set ℕ
  | .wide addr => Set.Ico addr (addr + bytesPerWord)
  | .narrow addr => Set.Ico addr (addr + 4)

namespace Place

variable {b b' : Place}

lemma bytes_slot_subset (e : Extent) (b : Place) :
    (b.slot e).bytes ⊆ Set.Ico (e.addr b.index) (e.addr b.index + bytesPerWord) := by
  cases b with
  | word i => exact subset_rfl
  | half j =>
    rintro y ⟨hle, hlt⟩
    simp only [Set.mem_Ico, Extent.addr_eq, bytesPerWord, index]
    omega

/-- Places that share no half word fill no byte in common. -/
theorem notMem_bytes (h : ¬b.Meets b') {y : ℕ} (hy : y ∈ (b.slot e).bytes) :
    y ∉ (b'.slot e).bytes := by
  intro hy'
  by_cases hindex : b.index = b'.index
  case neg =>
    -- The words around the places have no byte in common.
    refine hindex ?_
    obtain ⟨hle, hlt⟩ := bytes_slot_subset e b hy
    obtain ⟨hle', hlt'⟩ := bytes_slot_subset e b' hy'
    simp only [Extent.addr_eq, bytesPerWord] at *
    omega
  case pos =>
    cases b with
    | word i => exact absurd hindex h
    | half j =>
      cases b' with
      | word k => exact absurd hindex h
      | half k =>
        refine h ?_
        obtain ⟨hle, hlt⟩ := hy
        obtain ⟨hle', hlt'⟩ := hy'
        show j = k
        omega

lemma slot_injective (e : Extent) : Function.Injective (slot e) := by
  intro b b' h
  cases b <;> cases b' <;> simp only [slot, MemorySlot.wide.injEq, MemorySlot.narrow.injEq,
    Extent.addr_eq, reduceCtorEq] at h
  · congr 1
    omega
  · congr 1
    omega

lemma meets_self (b : Place) : b.Meets b := by
  cases b <;> rfl

lemma get_zero (b : Place) : b.get 0 = 0 := by
  cases b with
  | word i => rfl
  | half j => simp [get]

lemma load_cell_zero {b : Place} (c : Codec) : (b.cell c 0).load = .ok 0 := by
  cases b <;> rfl

/-- A cell that has been made to refer to an address refers to it. -/
lemma of_store_cell {c : Codec} {v : ℕ} {cell : Cell} (hshift : c.shift < bitsPerWord)
    (hx : x < wordValues) (h : (b.cell c v).store x = .ok cell) :
    ∃ raw < b.values, cell = b.cell c raw ∧ cell.load = .ok x := by
  cases b with
  | word i =>
    cases h
    exact ⟨x, hx, rfl, rfl⟩
  | half j =>
    obtain ⟨raw, hraw, hpure⟩ := bind_eq_ok_iff.1 h
    cases hpure
    obtain ⟨hlt, -, hdecode⟩ := (Codec.faithful c hshift).decode_encode x raw hx hraw
    exact ⟨raw, hlt, rfl, hdecode⟩

end Place

/-- A slot that holds the first cell can be made to hold the second one. -/
inductive Cell.Becomes : Cell → Cell → Prop
  | wide {v x : ℕ} (hx : x < wordValues) : Becomes (.wide v) (.wide x)
  | narrow {c : Codec} {v x : ℕ} (hx : x < narrowValues) : Becomes (.narrow c v) (.narrow c x)

lemma Place.cell_becomes {b : Place} (c : Codec) (v : ℕ) (hx : x < b.values) :
    (b.cell c v).Becomes (b.cell c x) := by
  cases b with
  | word i => exact .wide hx
  | half j => exact .narrow hx

lemma Place.exists_of_becomes {b : Place} {c : Codec} {v : ℕ} {cell : Cell}
    (h : (b.cell c v).Becomes cell) :
    ∃ x < b.values, cell = b.cell c x := by
  cases b with
  | word i =>
    cases h with
    | wide hx => exact ⟨_, hx, rfl⟩
  | half j =>
    cases h with
    | narrow hx => exact ⟨_, hx, rfl⟩

/-! ## Accessors -/

namespace MemoryImage

variable {image image' : MemoryImage} {addr : ℕ} {slot : MemorySlot} {cell : Cell}

/-- The slot of a part of the object at `addr`. -/
def slotAt (image : MemoryImage) (addr : ℕ) : Part → Except Fault MemorySlot
  | .header => pure (.wide addr)
  | .metadata =>
    match image.metadataSlot? addr with
    | some slot => pure slot
    | none => throw (.noMetadataSlot addr)
  | .wide i => image.wideSlot addr i
  | .narrow i => image.narrowSlot addr i
  | .payload i => do pure (.wide (← image.payloadAddr addr i))

/-- What a part of the object at `addr` holds. -/
def cellAt (image : MemoryImage) (addr : ℕ) (part : Part) : Except Fault Cell := do
  pure (image.read (← image.slotAt addr part))

/-- What a part of the object at `addr` is read as. -/
def valueAt (image : MemoryImage) (addr : ℕ) : Part → Except Fault ℕ
  | .header => pure (image.wordAt addr)
  | .metadata => image.metadata addr
  | .wide i => do (image.read (← image.wideSlot addr i)).load
  | .narrow i => do (image.read (← image.narrowSlot addr i)).load
  | .payload i => image.payload addr i

/-- Storing `x` through a part of the object at `addr` makes `image'` of the image. -/
def Stores (image : MemoryImage) (addr : ℕ) : Part → (x : ℕ) → (image' : MemoryImage) → Prop
  | .header, _, _ => False
  | .metadata, x, image' => image.setMetadata addr x = .ok image'
  | .wide i, x, image' => (do image.refer (← image.wideSlot addr i) x) = .ok image'
  | .narrow i, x, image' => (do image.refer (← image.narrowSlot addr i) x) = .ok image'
  | .payload i, x, image' => image.setPayload addr i x = .ok image'

/-- Overwriting a part of the object at `addr` with `cell`, whatever it refers to, makes `image'` of
the image. -/
def Overwrites (image : MemoryImage) (addr : ℕ) (part : Part) (cell : Cell)
    (image' : MemoryImage) : Prop :=
  part ≠ .header ∧ ∃ slot, image.slotAt addr part = .ok slot ∧ (image.read slot).Becomes cell
    ∧ image' = image.write slot cell

/-- Overwriting parts of the object at `addr`, over and over, makes `image'` of the image. -/
def OverwrittenTo (image : MemoryImage) (addr : ℕ) (image' : MemoryImage) : Prop :=
  Relation.ReflTransGen (fun before after => ∃ part cell,
    before.Overwrites addr part cell after) image image'

/-- A part is read as what it holds refers to. -/
lemma valueAt_of_cellAt (h : image.cellAt addr part = .ok cell) :
    image.valueAt addr part = cell.load := by
  obtain ⟨slot, hslot, hpure⟩ := bind_eq_ok_iff.1 h
  obtain rfl := pure_eq_ok_iff.1 hpure
  cases part with
  | header =>
    cases hslot
    rfl
  | metadata =>
    rw [valueAt, metadata]
    rw [slotAt] at hslot
    cases hmetadata : image.metadataSlot? addr with
    | some slot' =>
      rw [hmetadata] at hslot
      cases hslot
      rfl
    | none =>
      rw [hmetadata] at hslot
      cases hslot
  | wide i =>
    rw [slotAt] at hslot
    rw [valueAt, hslot, ok_bind]
  | narrow i =>
    rw [slotAt] at hslot
    rw [valueAt, hslot, ok_bind]
  | payload i =>
    obtain ⟨at', haddr, hpure⟩ := bind_eq_ok_iff.1 hslot
    cases hpure
    rw [valueAt, payload, haddr]
    rfl

/-- What is stored through a part goes to its slot. -/
lemma stores_iff : image.Stores addr part x image'
    ↔ part ≠ .header ∧ ∃ slot, image.slotAt addr part = .ok slot
    ∧ image.refer slot x = .ok image' := by
  cases part with
  | header => exact ⟨False.elim, fun h => h.1 rfl⟩
  | metadata =>
    rw [Stores, setMetadata, slotAt]
    cases image.metadataSlot? addr with
    | some slot =>
      refine ⟨fun h => ⟨nofun, slot, rfl, h⟩, ?_⟩
      rintro ⟨_, _, ⟨⟩, h⟩
      exact h
    | none => exact ⟨by rintro ⟨⟩, by rintro ⟨_, _, ⟨⟩, _⟩⟩
  | wide i =>
    rw [Stores, bind_eq_ok_iff]
    exact ⟨fun h => ⟨nofun, h⟩, And.right⟩
  | narrow i =>
    rw [Stores, bind_eq_ok_iff]
    exact ⟨fun h => ⟨nofun, h⟩, And.right⟩
  | payload i =>
    simp only [Stores, setPayload, slotAt, bind_eq_ok_iff]
    constructor
    · rintro ⟨at', haddr, h⟩
      exact ⟨nofun, .wide at', ⟨at', haddr, rfl⟩, h⟩
    · rintro ⟨_, _, ⟨at', haddr, ⟨⟩⟩, h⟩
      exact ⟨at', haddr, h⟩

/-! ## Objects of an image -/

/-- The image has an object of shape `s` at word `a`. -/
structure HasObject (image : MemoryImage) (e : Extent) (a : ℕ) (s : Shape) : Prop where
  backs : image.Backs e
  last_le : a + s.totalWords ≤ e.words
  wide_le : s.wide ≤ maximumReferences
  narrow_le : s.narrow ≤ maximumReferences
  total_lt : s.totalWords < sizeLimit
  header_eq : image.word e a = s.header

namespace HasObject

variable (h : image.HasObject e a s)
include h

lemma shapeAt_eq : image.shapeAt (e.addr a) = .ok s := by
  show Shape.ofHeader (image.word e a) = .ok s
  rw [h.header_eq]
  exact Shape.ofHeader_header h.wide_le h.narrow_le h.total_lt

lemma index_lt (hpart : s.Has part) : (s.placeOf a part).index < e.words :=
  lt_of_lt_of_le (s.index_placeOf_bounds hpart a).2 h.last_le

/-- The accessors find the parts that the object has, each at its place, and no others. -/
theorem slotAt_eq_ok_iff :
    image.slotAt (e.addr a) part = .ok slot ↔ s.Has part ∧ slot = (s.placeOf a part).slot e := by
  have hshape := h.shapeAt_eq
  cases part with
  | header =>
    rw [slotAt, pure_eq_ok_iff, eq_comm]
    exact ⟨fun heq => ⟨trivial, heq⟩, And.right⟩
  | metadata =>
    have hslot : image.metadataSlot? (e.addr a) = (s.metadataPlace? a).map (Place.slot e) :=
      Shape.metadataSlot?_eq hshape
    rw [slotAt, hslot, Shape.metadataPlace?, Shape.Has]
    cases s.metadata with
    | true =>
      exact ⟨fun heq => ⟨rfl, (pure_eq_ok_iff.1 heq).symm⟩, fun heq => pure_eq_ok_iff.2 heq.2.symm⟩
    | false => exact ⟨by rintro ⟨⟩, by rintro ⟨⟨⟩, _⟩⟩
  | wide i =>
    rw [slotAt, wideSlot, hshape, ok_bind, guard_eq_ok_iff, Shape.wideBase_addr, Extent.addr_add]
    exact and_congr_right fun _ => eq_comm
  | narrow i =>
    have haddr : e.addr (a + s.narrowStart) + 4 * i
        = e.start + 4 * (2 * (a + s.narrowStart) + i) := by
      rw [Extent.addr_eq]
      omega
    rw [slotAt, narrowSlot, hshape, ok_bind, guard_eq_ok_iff, Shape.narrowBase_addr, haddr]
    exact and_congr_right fun _ => eq_comm
  | payload i =>
    have haddr : payloadBase s (e.addr a) + bytesPerWord * i = e.addr (a + s.fixedWords + i) := by
      rw [payloadBase, Shape.narrowBase_addr, Extent.addr_add, Extent.addr_add, Shape.fixedWords_eq,
        ← Nat.add_assoc]
    rw [slotAt, payloadAddr, hshape, ok_bind, haddr]
    simp only [bind_eq_ok_iff, guard_eq_ok_iff, pure_eq_ok_iff]
    constructor
    · rintro ⟨_, ⟨hi, rfl⟩, rfl⟩
      exact ⟨hi, rfl⟩
    · rintro ⟨hi, rfl⟩
      exact ⟨_, ⟨hi, rfl⟩, rfl⟩

lemma cellAt_eq (hpart : s.Has part) : image.cellAt (e.addr a) part
    = .ok ((s.placeOf a part).cell image.codec (image.value e (s.placeOf a part))) := by
  rw [cellAt, h.slotAt_eq_ok_iff.2 ⟨hpart, rfl⟩, ok_bind, read_slot h.backs]
  rfl

/-- References are visited in the order of their numbers, each once. -/
lemma slots_eq : ObjectModel.slots image (e.addr a) = .ok ((s.places a).map (Place.slot e))
    ∧ ((s.places a).map (Place.slot e)).map .ok
      = (List.range s.wide).map (image.wideSlot (e.addr a)) ++ (List.range s.narrow).map
        (image.narrowSlot (e.addr a))
    ∧ ((s.places a).map (Place.slot e)).Nodup := by
  refine ⟨?_, ?_, ?_⟩
  · show (do let s ← image.shapeAt (e.addr a); pure (slotsOf s (e.addr a))) = _
    rw [h.shapeAt_eq, ok_bind, Shape.slotsOf_eq]
    rfl
  · rw [Shape.places, List.map_append, List.map_append, List.map_map, List.map_map, List.map_map,
      List.map_map]
    congr 1
    · refine List.map_congr_left fun i hi => ?_
      have hslot : image.slotAt (e.addr a) (.wide i) = .ok _ :=
        h.slotAt_eq_ok_iff.2 ⟨List.mem_range.1 hi, rfl⟩
      exact hslot.symm
    · refine List.map_congr_left fun i hi => ?_
      have hslot : image.slotAt (e.addr a) (.narrow i) = .ok _ :=
        h.slotAt_eq_ok_iff.2 ⟨List.mem_range.1 hi, rfl⟩
      exact hslot.symm
  · refine (s.places_pairwise a).map _ fun b b' hapart heq => hapart ?_
    rw [Place.slot_injective e heq]
    exact b'.meets_self

/-- Overwriting a part that is not the header leaves the object where it is. -/
lemma exists_write (hover : image.Overwrites (e.addr a) part cell image') :
    s.Has part ∧ a < (s.placeOf a part).index ∧ ∃ x < (s.placeOf a part).values,
      cell = (s.placeOf a part).cell image.codec x
      ∧ image'
        = image.write ((s.placeOf a part).slot e) ((s.placeOf a part).cell image.codec x) := by
  obtain ⟨hbody, slot, hslot, hbecomes, rfl⟩ := hover
  obtain ⟨hpart, rfl⟩ := h.slotAt_eq_ok_iff.1 hslot
  rw [read_slot h.backs] at hbecomes
  obtain ⟨x, hx, rfl⟩ := Place.exists_of_becomes hbecomes
  exact ⟨hpart, s.lt_index_placeOf hpart hbody a, x, hx, rfl, rfl⟩

lemma overwrites (hover : image.Overwrites (e.addr a) part cell image') :
    image'.HasObject e a s := by
  obtain ⟨hpart, hlt, x, hx, rfl, rfl⟩ := h.exists_write hover
  refine { h with backs := h.backs.write (h.index_lt hpart) _ hx, header_eq := ?_ }
  rw [word_write h.backs (h.index_lt hpart), if_neg (Nat.ne_of_gt hlt)]
  exact h.header_eq

/-- A part that is overwritten holds what it is overwritten with, and every other part keeps what it
holds. -/
theorem cellAt_overwrites (hover : image.Overwrites (e.addr a) part cell image') :
    image'.cellAt (e.addr a) part = .ok cell
      ∧ ∀ other, other ≠ part → s.Has other →
        image'.cellAt (e.addr a) other = image.cellAt (e.addr a) other := by
  have h' := h.overwrites hover
  have hcodec : image'.codec = image.codec := h'.backs.codec.trans h.backs.codec.symm
  obtain ⟨hpart, -, x, hx, rfl, rfl⟩ := h.exists_write hover
  constructor
  · rw [h'.cellAt_eq hpart, value_write_self h.backs (h.index_lt hpart) _ hx, hcodec]
  · intro other hne hother
    have happart := s.placeOf_not_meets hpart hother hne.symm a
    rw [h'.cellAt_eq hother, h.cellAt_eq hother,
      value_write_of_not_meets h.backs (h.index_lt hpart) _ hx happart, hcodec]

/-- What is stored through a part is what the part refers to from then on. -/
lemma exists_overwrites (hx : x < wordValues) (hstores : image.Stores (e.addr a) part x image') :
    ∃ cell, image.Overwrites (e.addr a) part cell image' ∧ cell.load = .ok x := by
  obtain ⟨hbody, slot, hslot, hrefer⟩ := stores_iff.1 hstores
  obtain ⟨hpart, rfl⟩ := h.slotAt_eq_ok_iff.1 hslot
  obtain ⟨cell, hstore, hpure⟩ := bind_eq_ok_iff.1 hrefer
  obtain rfl := pure_eq_ok_iff.1 hpure
  have hshift : image.codec.shift < bitsPerWord := by
    rw [h.backs.codec]
    exact (by decide : 3 < bitsPerWord)
  rw [read_slot h.backs] at hstore
  obtain ⟨raw, hraw, rfl, hload⟩ := Place.of_store_cell hshift hx hstore
  refine ⟨_, ⟨hbody, _, hslot, ?_, rfl⟩, hload⟩
  rw [read_slot h.backs]
  exact Place.cell_becomes _ _ hraw

/-- Everything can be stored through a part that the object has, except what no narrow reference
stands for. -/
lemma exists_stores (hbody : part ≠ .header) (hpart : s.Has part)
    (hnarrow : ∀ i, part = .narrow i → ∃ raw, image.codec.encode x = .ok raw) :
    ∃ image', image.Stores (e.addr a) part x image' := by
  have hcell : ∃ cell,
      ((s.placeOf a part).cell image.codec (image.value e (s.placeOf a part))).store x
        = .ok cell := by
    cases part with
    | narrow i =>
      obtain ⟨raw, hraw⟩ := hnarrow i rfl
      exact ⟨.narrow image.codec raw, bind_eq_ok_iff.2 ⟨raw, hraw, rfl⟩⟩
    | _ => exact ⟨.wide x, rfl⟩
  obtain ⟨cell, hcell⟩ := hcell
  rw [← read_slot h.backs] at hcell
  exact ⟨_, stores_iff.2 ⟨hbody, _, h.slotAt_eq_ok_iff.2 ⟨hpart, rfl⟩,
    bind_eq_ok_iff.2 ⟨cell, hcell, rfl⟩⟩⟩

end HasObject

/-! ## Reading an object back -/

/-- The image has an object of shape `s` at `addr`, and its parts are told apart. -/
structure LaysOut (image : MemoryImage) (addr : ℕ) (s : Shape) : Prop where
  shape_eq : image.shapeAt addr = .ok s
  size_eq : image.objectWords addr = s.totalWords
  not_filler : image.isFiller addr = false
  visits : ∃ slots : List MemorySlot, ObjectModel.slots image addr = .ok slots
    ∧ slots.map .ok = (List.range s.wide).map (image.wideSlot addr)
      ++ (List.range s.narrow).map (image.narrowSlot addr)
    ∧ slots.Nodup
  has_iff : ∀ part, s.Has part ↔ ∃ slot, image.slotAt addr part = .ok slot
  within : ∀ part slot, image.slotAt addr part = .ok slot →
    slot.bytes ⊆ Set.Ico addr (addr + bytesPerWord * s.totalWords)
  apart : ∀ part other slot slot', part ≠ other → image.slotAt addr part = .ok slot →
    image.slotAt addr other = .ok slot' →
    ∀ y ∈ slot.bytes, y ∉ slot'.bytes
  takes : ∀ part x, part ≠ .header → s.Has part →
    (∀ i, part = .narrow i → ∃ raw, image.codec.encode x = .ok raw) →
    ∃ image', image.Stores addr part x image'

/-- A fresh object is read back as what it was made of, and however its parts are overwritten, each
of them holds what was written to it last. -/
structure Unambiguous (image : MemoryImage) (addr : ℕ) (s : Shape) : Prop where
  null : ∀ part, part ≠ .header → s.Has part → image.valueAt addr part = .ok 0
  laysOut : ∀ image', image.OverwrittenTo addr image' → image'.LaysOut addr s
  overwritten : ∀ image' image'' part cell, image.OverwrittenTo addr image' →
    image'.Overwrites addr part cell image'' →
    image''.cellAt addr part = .ok cell ∧ ∀ other, other ≠ part → s.Has other →
      image''.cellAt addr other = image'.cellAt addr other
        ∧ image''.valueAt addr other = image'.valueAt addr other
  stored : ∀ image' image'' part x, x < wordValues → image.OverwrittenTo addr image' →
    image'.Stores addr part x image'' →
    (∃ cell, image'.Overwrites addr part cell image'') ∧ image''.valueAt addr part = .ok x

namespace HasObject

variable (h : image.HasObject e a s)
include h

lemma overwrittenTo (hover : image.OverwrittenTo (e.addr a) image') : image'.HasObject e a s := by
  induction hover with
  | refl => exact h
  | tail _ hstep ih =>
    obtain ⟨part, cell, hstep⟩ := hstep
    exact ih.overwrites hstep

lemma laysOut : image.LaysOut (e.addr a) s where
  shape_eq := h.shapeAt_eq
  size_eq := (Shape.ofHeader_eq h.shapeAt_eq).1.symm
  not_filler := by
    have heven : s.header % 2 = 0 := s.header_mod_two
    show (image.word e a % 2 == fillerFlag) = false
    rw [h.header_eq, heven]
    rfl
  visits := ⟨_, h.slots_eq⟩
  has_iff part := by
    constructor
    · exact fun hpart => ⟨_, h.slotAt_eq_ok_iff.2 ⟨hpart, rfl⟩⟩
    · rintro ⟨slot, hslot⟩
      exact (h.slotAt_eq_ok_iff.1 hslot).1
  within part slot hslot := by
    obtain ⟨hpart, rfl⟩ := h.slotAt_eq_ok_iff.1 hslot
    obtain ⟨hle, hlt⟩ := s.index_placeOf_bounds hpart a
    refine (Place.bytes_slot_subset e _).trans (Set.Ico_subset_Ico (e.addr_le_addr.2 hle) ?_)
    rw [Extent.addr_eq, Extent.addr_eq, bytesPerWord]
    omega
  apart part other slot slot' hne hslot hslot' y hy := by
    obtain ⟨hpart, rfl⟩ := h.slotAt_eq_ok_iff.1 hslot
    obtain ⟨hother, rfl⟩ := h.slotAt_eq_ok_iff.1 hslot'
    exact Place.notMem_bytes (s.placeOf_not_meets hpart hother hne a) hy
  takes part x hbody hpart hnarrow := h.exists_stores hbody hpart hnarrow

/-- An object whose body is zero is unambiguous. -/
theorem unambiguous (hzero : ∀ i, a < i → i < a + s.totalWords → image.word e i = 0) :
    image.Unambiguous (e.addr a) s where
  null part hbody hpart := by
    have hindex := s.index_placeOf_bounds hpart a
    have hvalue : image.value e (s.placeOf a part) = 0 := by
      rw [value, hzero _ (s.lt_index_placeOf hpart hbody a) hindex.2, Place.get_zero]
    rw [valueAt_of_cellAt (h.cellAt_eq hpart), hvalue]
    exact Place.load_cell_zero _
  laysOut image' hover := (h.overwrittenTo hover).laysOut
  overwritten image' image'' part cell hover hlast := by
    have h' := h.overwrittenTo hover
    obtain ⟨hcell, hothers⟩ := h'.cellAt_overwrites hlast
    refine ⟨hcell, fun other hne hother => ?_⟩
    have hkept := hothers other hne hother
    refine ⟨hkept, ?_⟩
    rw [valueAt_of_cellAt (h'.cellAt_eq hother),
      valueAt_of_cellAt (hkept.trans (h'.cellAt_eq hother))]
  stored image' image'' part x hx hover hlast := by
    have h' := h.overwrittenTo hover
    obtain ⟨cell, hwritten, hload⟩ := h'.exists_overwrites hx hlast
    refine ⟨⟨cell, hwritten⟩, ?_⟩
    rw [valueAt_of_cellAt (h'.cellAt_overwrites hwritten).1, hload]

end HasObject

/-- Making a fresh object writes its header and clears its body. -/
lemma placeFresh_eq (hbacks : image.Backs e) (hwide : s.wide ≤ maximumReferences)
    (hnarrow : s.narrow ≤ maximumReferences) (htotal : s.totalWords < sizeLimit)
    (hlast : a + s.totalWords ≤ e.words) :
    ∃ fresh, image.placeFresh (e.addr a) s = .ok fresh ∧ fresh.HasObject e a s
      ∧ ∀ i, a < i → i < a + s.totalWords → fresh.word e i = 0 := by
  have hpos : 0 < s.totalWords := lt_of_lt_of_le s.fixedWords_pos s.fixedWords_le
  have hwords : s.words = .ok s.totalWords := by
    have hcount : s.narrow + 1 < wordValues := lt_of_le_of_lt (Nat.succ_le_succ hnarrow) (by decide)
    have hsum : s.fixedWords + s.payload < wordValues := lt_trans htotal (by decide)
    rw [Shape.words, Word.add_eq hcount, ok_bind, Word.add_eq hsum]
    rfl
  have hheader : s.header? = .ok s.header := if_pos ⟨hwide, hnarrow⟩
  have hset := hbacks.setWord (i := a) (by omega) s.header_lt
  obtain ⟨hfresh, hword⟩ :=
    setWords_backs hset (d := a + 1) (n := s.totalWords - 1) (by omega) (fun _ => 0)
    fun _ _ => (by decide : 0 < wordValues)
  refine ⟨_, ?_, ⟨hfresh, hlast, hwide, hnarrow, htotal, ?_⟩, fun i hi hi' => ?_⟩
  · have hzeros : List.replicate (s.totalWords - 1) 0 = (List.range (s.totalWords - 1)).map fun _ =>
        0 := by simp
    have hbody : e.addr a + bytesPerWord = e.addr (a + 1) := e.addr_add a 1
    rw [placeFresh, hwords, hheader, ok_bind, ok_bind, hzeros, hbody]
    rfl
  · rw [hword, if_neg (by omega), word_setWord hbacks (by omega), if_pos rfl]
  · rw [hword, if_pos (by omega)]

/-- A fresh object is unambiguous, whatever was in its place. -/
theorem placeFresh_unambiguous (hbacks : image.Backs e) (hwide : s.wide ≤ maximumReferences)
    (hnarrow : s.narrow ≤ maximumReferences) (htotal : s.totalWords < sizeLimit)
    (hlast : a + s.totalWords ≤ e.words) :
    ∃ fresh, image.placeFresh (e.addr a) s = .ok fresh ∧ fresh.Unambiguous (e.addr a) s := by
  obtain ⟨fresh, hfresh, hobject, hzero⟩ := placeFresh_eq hbacks hwide hnarrow htotal hlast
  exact ⟨fresh, hfresh, hobject.unambiguous hzero⟩

/-- An object with an odd number of narrow references, in the middle of zeroed memory. -/
theorem placeFresh_unambiguous_oddNarrow :
    let image : MemoryImage := .zeroed 64 512 ⟨56, 3⟩
    let s : Shape := { wide := 2, narrow := 3, payload := 1, metadata := true }
    image.Backs ⟨64, 512⟩ ∧ s.wide ≤ maximumReferences ∧ s.narrow ≤ maximumReferences
      ∧ s.totalWords < sizeLimit
      ∧ 5 + s.totalWords ≤ Extent.words ⟨64, 512⟩
      ∧ ∃ fresh, image.placeFresh (Extent.addr ⟨64, 512⟩ 5) s = .ok fresh
      ∧ fresh.Unambiguous (Extent.addr ⟨64, 512⟩ 5) s := by
  have hbacks : (MemoryImage.zeroed 64 512 ⟨56, 3⟩).Backs ⟨64, 512⟩ :=
    ⟨rfl, by decide, by decide, rfl⟩
  exact ⟨hbacks, by decide, by decide, by decide, by decide,
    placeFresh_unambiguous hbacks (by decide) (by decide) (by decide) (by decide)⟩

end MemoryImage

end MarkCompact
