import MarkCompact.ByteSize
import MarkCompact.StartTable
import MarkCompact.Text.Quoted

/-!
# Spaces

A space is a range in which a host allocates from the bottom up to the top.  During a cycle the
collector plans its new top and its dense prefix, the part below which objects stay where they are.
-/

namespace MarkCompact

/-- A space as a host hands it over. -/
structure SpaceConfig where
  name : String
  bottom : Nat
  limit : Nat
  top : Nat
  /-- The least percentage of dead space that a dense prefix may leave behind. -/
  deadRatio : Nat
  deriving DecidableEq, Repr

namespace SpaceConfig

/-- An empty space for ordinary objects. -/
def old (name : String) (bottom limit : Nat) : SpaceConfig :=
  ⟨name, bottom, limit, bottom, 5⟩

/-- An empty space for objects that rarely die. -/
def perm (name : String) (bottom limit : Nat) : SpaceConfig :=
  ⟨name, bottom, limit, bottom, 20⟩

end SpaceConfig

/-- The state of one space. -/
structure Space where
  name : String
  bottom : Nat
  limit : Nat
  top : Nat
  /-- The end of live data once compaction has finished. -/
  newTop : Nat
  /-- Objects below this address stay. -/
  densePrefix : Nat
  deadRatio : Nat
  starts : StartTable
  liveWords : Nat := 0
  liveObjects : Nat := 0

namespace Space

/-- The state of a space before the first cycle. -/
def ofConfig (c : SpaceConfig) : Space where
  name := c.name
  bottom := c.bottom
  limit := c.limit
  top := c.top
  newTop := c.top
  densePrefix := c.bottom
  deadRatio := c.deadRatio
  starts := .unrecorded ⟨c.bottom, c.limit - c.bottom⟩

/-- Moves the top, as a host does when it allocates. -/
def setTop (s : Space) (top : Nat) : Except Fault Space :=
  if s.bottom ≤ top ∧ top ≤ s.limit then pure { s with top } else throw (.topOutside top s.name)

/-- Plans the new top. -/
def setNewTop (s : Space) (newTop : Nat) : Except Fault Space :=
  if s.bottom ≤ newTop ∧ newTop ≤ s.top then pure { s with newTop } else throw .newTopOutside

/-- Plans the dense prefix. -/
def setDensePrefix (s : Space) (densePrefix : Nat) : Except Fault Space :=
  if s.bottom ≤ densePrefix ∧ densePrefix ≤ s.limit then pure { s with densePrefix }
  else throw .densePrefixOutside

/-- Whether `addr` lies in the space, below the top or not. -/
def contains (s : Space) (addr : Nat) : Bool :=
  s.bottom ≤ addr && addr < s.limit

/-- Whether nothing is allocated. -/
def isEmpty (s : Space) : Bool :=
  s.top == s.bottom

/-- The words below the top. -/
def usedWords (s : Space) : Nat :=
  (s.top - s.bottom) / bytesPerWord

/-- The words of the whole space. -/
def capacityWords (s : Space) : Nat :=
  (s.limit - s.bottom) / bytesPerWord

/-- One line for people. -/
def describe (s : Space) : String :=
  s!"SpaceInfo \x7b name: {quoted s.name}, bottom: {hex s.bottom}, top: {hex s.top}, new_top: {
    hex s.newTop}, dense_prefix: {hex s.densePrefix}, capacity: {
    showBytes (s.limit - s.bottom)} \x7d"

/-- Records that an object starts at `addr`. -/
def recordStart (s : Space) (addr : Nat) : Except Fault Space := do
  let starts ← s.starts.record addr
  pure { s with starts }

end Space

end MarkCompact
