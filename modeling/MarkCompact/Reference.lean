import MarkCompact.Word

/-!
# References

A reference is an address; zero refers to nothing.  A slot holds a reference wide, as the address
itself, or narrow, as thirty-two bits from which a `Codec` makes the address.  Forwarding works on
addresses only: `Cell.load` and `Cell.store` hide which kind a slot is.

Main definitions: `Codec.encode` and `Codec.decode` (the two directions), `Cell.load` and
`Cell.store`.
-/

namespace MarkCompact

/-- One more than the largest narrow reference. -/
def narrowValues : Nat := 4294967296

/-- Narrow references count units of `2 ^ shift` bytes from `base`.  The base lies below every
object, so that no object is encoded as zero. -/
structure Codec where
  base : Nat
  shift : Nat
  deriving DecidableEq, Repr

namespace Codec

/-- The codec that counts words, for a heap that starts at `start`. -/
def ofHeap (start : Nat) : Except Fault Codec := do
  let base ← Word.sub start bytesPerWord
  pure ⟨base, 3⟩

/-- The narrow form of the address `addr`. -/
def encode (c : Codec) (addr : Nat) : Except Fault Nat := do
  if addr = 0 then pure 0
  else if addr ≤ c.base then throw (.belowNarrowBase addr c.base)
  else
    let units ← Word.shiftRight (addr - c.base) c.shift
    if units < narrowValues ∧ units <<< c.shift = addr - c.base then pure units
    else throw (.notEncodable addr)

/-- The address of the narrow reference `raw`. -/
def decode (c : Codec) (raw : Nat) : Except Fault Nat := do
  if raw = 0 then pure 0
  else
    let offset ← Word.shiftLeft raw c.shift
    Word.add c.base offset

end Codec

/-! ## Slots -/

/-- What a slot holds. -/
inductive Cell where
  | wide (addr : Nat)
  | narrow (codec : Codec) (raw : Nat)
  deriving DecidableEq, Repr

namespace Cell

/-- The address that a slot refers to. -/
def load : Cell → Except Fault Nat
  | wide addr => pure addr
  | narrow codec raw => codec.decode raw

/-- The slot of the same kind that refers to `addr`. -/
def store (addr : Nat) : Cell → Except Fault Cell
  | wide _ => pure (wide addr)
  | narrow codec _ => do
    let raw ← codec.encode addr
    pure (narrow codec raw)

end Cell

/-- Which references are being adjusted. -/
inductive Traversal where
  /-- Strong roots of the host. -/
  | root
  /-- References inside heap objects. -/
  | heap
  /-- Weak roots, which are cleared when what they refer to did not survive. -/
  | weak
  deriving DecidableEq, Repr

end MarkCompact
