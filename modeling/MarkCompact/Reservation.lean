import MarkCompact.Extent
import MarkCompact.Setup

/-!
# Reserving memory

Memory is mapped in whole pages, zeroed, at an address that is a multiple of the alignment asked
for. To find such an address a longer range is mapped and its ends are given back.  The system
refuses empty mappings and mappings of `2 ^ 50` bytes and more.

Sizes are rounded up as signed words, so a size just below `2 ^ 64` rounds to nothing.

Main definitions: `reservedBytes?` (how much is reserved) and `reserveFrom?` (also where, for a
system that maps memory at given addresses).
-/

namespace MarkCompact

/-- Bytes in a page. -/
def pageBytes : Nat := 4096

/-- The least mapping that the system refuses. -/
def mappingLimit : Nat := 1125899906842624

/-- Whether the system maps `bytes` bytes. -/
def systemMaps (bytes : Nat) : Bool :=
  0 < bytes && bytes < mappingLimit

/-- The size in bytes of a reservation of `bytes` bytes aligned to `alignment`, and how many bytes
are mapped to find it in; `none` if that is no word. -/
def reservationSizes? (bytes alignment : Nat) : Except Fault (Option (Nat × Nat)) := do
  let alignment := max alignment pageBytes
  let rounded ← Word.roundUp (Word.toSigned (max bytes 1)) pageBytes
  let size := Word.ofSigned rounded
  let mapped := size + (alignment - pageBytes)
  pure (if mapped < wordValues then some (size, mapped) else none)

/-- The size in bytes of a reservation of `bytes` bytes aligned to `alignment`; `none` if it is
refused. -/
def reservedBytes? (bytes alignment : Nat) : Except Fault (Option Nat) := do
  match ← reservationSizes? bytes alignment with
  | some (size, mapped) => pure (if systemMaps mapped then some size else none)
  | none => pure none

/-- The first aligned `size` bytes of the `mapped` ones at `base`.  What is mapped in front of them
and behind them is given back. -/
def keepAligned (base mapped size alignment : Nat) : Except Fault Extent := do
  let aligned ← Word.roundUp (Word.toSigned base) (Word.toSigned alignment)
  let start := Word.ofSigned aligned
  let _ ← Word.sub start base
  let stop ← Word.add start size
  let mappedStop ← Word.add base mapped
  let _ ← Word.sub mappedStop stop
  pure ⟨start, size⟩

/-- Reserves `bytes` bytes aligned to `alignment` from a system that maps so many bytes at the
address that `map` says, if it maps them at all. -/
def reserveFrom? (map : Nat → Option Nat) (bytes alignment : Nat) :
    Except Fault (Option Extent) := do
  match ← reservationSizes? bytes alignment with
  | some (size, mapped) =>
    match map mapped with
    | some base => do
      let e ← keepAligned base mapped size (max alignment pageBytes)
      pure (some e)
    | none => pure none
  | none => pure none

/-- Reserves memory, or refuses to start; the size in bytes of what is reserved, whole pages. -/
def reserve (what : String) (bytes alignment : Nat) : Except SetupError Nat := do
  match ← reservedBytes? bytes alignment with
  | some size => pure size
  | none => throw (.refused (.reservation what bytes))

end MarkCompact
