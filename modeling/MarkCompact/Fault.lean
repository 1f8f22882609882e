import MarkCompact.Text.Hex

/-!
# Faults

A `Fault` is a broken invariant: a machine word that overflowed, an index past the end of a table,
or a check of the collector that did not hold.  A fault ends the operation that met it; nothing is
recovered.  Each cause is one constructor, and `Fault.message` is the only place where causes
become text.

The causes are grouped by the part of the collector that raises them: machine words, references,
mark bitmap, region table, object starts, spaces, marking, planning, compaction, verification and
the self-describing objects of the sample heap.
-/

namespace MarkCompact

/-- A broken invariant, by cause. -/
inductive Fault where
  -- machine words
  | addOverflow
  | subOverflow
  | mulOverflow
  | negOverflow
  | shiftLeftOverflow
  | shiftRightOverflow
  | divisionByZero
  | deltaInverted (left right : Nat)
  | indexOutOfBounds (length index : Nat)
  | sliceInverted (start stop : Nat)
  -- references
  | belowNarrowBase (addr base : Nat)
  | notEncodable (addr : Nat)
  -- mark bitmap
  | outsideCovered (addr start stop : Nat)
  | bitOutOfBounds (bit size : Nat)
  | bitRangeInverted (start stop : Nat)
  | bitLimitOutOfBounds (stop size : Nat)
  | bitPastEnd
  | emptyMark (addr : Nat)
  | noObjectAt (addr : Nat)
  | noObjectEnd (addr : Nat)
  | objectCrosses (addr : Nat)
  | stoppedComplete
  -- region table
  | wrongCoveredSize
  | partialTooLarge (words : Nat)
  | countTooLarge (count : Nat)
  | liveTooLarge (words : Nat)
  | liveSumTooLarge (live words : Nat)
  | decrementOfClaimed
  | countUnderflow
  | completionUnclaimed
  | completionTwice
  | pushedTwice
  | blockOffsetTooLarge
  | regionOutOfBounds (index count : Nat)
  | blockOutOfBounds (index count : Nat)
  | regionPastEnd
  | emptyObject
  | notRegionAligned
  | cannotMoveAlone (region : Nat)
  | notLive (addr : Nat)
  | forwardingDisagrees (addr : Nat)
  -- object starts
  | outsideStarts (addr start stop : Nat)
  | endlessObject (addr : Nat)
  -- spaces
  | topOutside (top : Nat) (space : String)
  | newTopOutside
  | densePrefixOutside
  -- marking
  | queuesNotEmpty
  -- planning
  | mustMoveLeft (region : Nat)
  | newTopAboveTop
  | destinationAboveNewTop
  | firstBit
  | gapTooSmall (addr : Nat)
  | mustFit (space : String)
  | boundaryNotReady
  -- compaction
  | aboveNewTop (region : Nat) (space : String)
  | inNoSpace (addr : Nat)
  | straddlerPastEnd
  | straddlerOverflows
  | crossesSpaceTop (addr : Nat)
  | sourceWithoutData (region : Nat)
  | noSourceAfter (addr : Nat)
  | wrongSource (region : Nat)
  | emptySource (region : Nat)
  | noObjectStarts (region : Nat)
  | nothingToSkip
  | tooFewToSkip
  | wrongDestination (addr : Nat)
  | prefixRegionClaimed (region : Nat)
  -- verification
  | notCompleted (space : String) (region : Nat)
  | notDrained (space : String) (region count : Nat)
  | startNotRecorded (space : String) (addr : Nat)
  | overrunsNewTop (space : String)
  -- sample objects
  | tooManyReferences (wide narrow payload : Nat) (metadata : Bool)
  | wideOutOfBounds (index : Nat)
  | narrowOutOfBounds (index : Nat)
  | payloadOutOfBounds (index : Nat)
  | noMetadataSlot (addr : Nat)
  | emptyFill
  deriving DecidableEq, Repr

namespace Fault

private def overflow (operation : String) : String :=
  "attempt to " ++ operation ++ " with overflow"

private def failed (condition : String) : String :=
  "assertion failed: " ++ condition

private def unequal (claim : String) : String :=
  "assertion `left == right` failed: " ++ claim

private def outside (addr : Nat) (table : String) (start stop : Nat) : String :=
  s!"address {hex addr} outside of {table} {hexRange start stop}"

/-- The report of a fault. -/
def message : Fault → String
  | addOverflow => overflow "add"
  | subOverflow => overflow "subtract"
  | mulOverflow => overflow "multiply"
  | negOverflow => overflow "negate"
  | shiftLeftOverflow => overflow "shift left"
  | shiftRightOverflow => overflow "shift right"
  | divisionByZero => "attempt to divide by zero"
  | deltaInverted left right => s!"pointer_delta: {hex left} < {hex right}"
  | indexOutOfBounds length index =>
    s!"index out of bounds: the len is {length} but the index is {index}"
  | sliceInverted start stop => s!"slice index starts at {start} but ends at {stop}"
  | belowNarrowBase addr base => s!"reference {hex addr} below narrow base {hex base}"
  | notEncodable addr => s!"reference {hex addr} is not encodable"
  | outsideCovered addr start stop => outside addr "covered range" start stop
  | bitOutOfBounds bit size => s!"BitMap index is out of bounds: {bit} >= {size}"
  | bitRangeInverted start stop => s!"BitMap range is invalid: {start} > {stop}"
  | bitLimitOutOfBounds stop size => s!"BitMap limit is out of bounds: {stop} > {size}"
  | bitPastEnd => failed "bit <= self.size()"
  | emptyMark addr => s!"cannot mark a zero-sized object at {hex addr}"
  | noObjectAt addr => s!"no object starts at {hex addr}"
  | noObjectEnd addr => s!"object at {hex addr} has no end bit"
  | objectCrosses addr => s!"object crosses {hex addr}"
  | stoppedComplete =>
    failed "matches!(status, IterationStatus::WouldOverflow | IterationStatus::Full)"
  | wrongCoveredSize => "assertion `left == right` failed"
  | partialTooLarge words => s!"partial object size overflow: {words}"
  | countTooLarge count => s!"destination count {count} does not fit the packed state"
  | liveTooLarge words => s!"live object size overflow: {words}"
  | liveSumTooLarge live words => s!"live object size overflow: {live} + {words}"
  | decrementOfClaimed => "decrementing a claimed region"
  | countUnderflow => "destination count underflow"
  | completionUnclaimed => "completing a region that was not claimed"
  | completionTwice => "region completed twice"
  | pushedTwice => "region pushed twice"
  | blockOffsetTooLarge => failed "words <= LOS_MASK as usize"
  | regionOutOfBounds index count => s!"region index is out of bounds: {index} >= {count}"
  | blockOutOfBounds index count => s!"block index is out of bounds: {index} >= {count}"
  | regionPastEnd => failed "region_idx <= self.opts.region_count"
  | emptyObject => failed "len > 0"
  | notRegionAligned => "not region aligned"
  | cannotMoveAlone region =>
    s!"region {region} starts inside an object and cannot be moved alone"
  | notLive addr => s!"address {hex addr} is not inside a live object"
  | forwardingDisagrees addr =>
    unequal s!"block table disagrees with region scan for {hex addr}"
  | outsideStarts addr start stop => outside addr "start array" start stop
  | endlessObject addr => s!"object at {hex addr} has no words"
  | topOutside top space => s!"top {hex top} outside of space {space}"
  | newTopOutside => failed "new_top >= self.bottom && new_top <= self.top"
  | densePrefixOutside => failed "addr >= self.bottom && addr <= self.end"
  | queuesNotEmpty => failed "queues.is_empty()"
  | mustMoveLeft region => s!"region {region} must move left"
  | newTopAboveTop => failed "top >= new_top && new_top > bottom"
  | destinationAboveNewTop => failed "new_top >= destination"
  | firstBit => "cannot call this for the first bit"
  | gapTooSmall addr => s!"dead space at {hex addr} is smaller than the minimum object"
  | mustFit space => s!"space {space} must fit into itself"
  | boundaryNotReady => "the region after the dense prefix must be ready to fill"
  | aboveNewTop region space => s!"region {region} lies above the new top of {space}"
  | inNoSpace addr => s!"address {hex addr} is not in any space"
  | straddlerPastEnd => failed "closure.source < end_addr"
  | straddlerOverflows => failed "status != IterationStatus::WouldOverflow"
  | crossesSpaceTop addr => s!"object at {hex addr} crosses the space top"
  | sourceWithoutData region => s!"region {region} must have live data"
  | noSourceAfter addr => s!"no source region was found after {hex addr}"
  | wrongSource region => s!"wrong source region {region}"
  | emptySource region => s!"source region {region} is empty"
  | noObjectStarts region => s!"no object starts in region {region}"
  | nothingToSkip => failed "count > 0"
  | tooFewToSkip => "not enough live words to skip"
  | wrongDestination addr => unequal s!"wrong destination for {hex addr}"
  | prefixRegionClaimed region => s!"dense prefix region {region} was already claimed"
  | notCompleted space region => s!"{space}: region {region} was not completed"
  | notDrained space region count =>
    s!"{space}: region {region} was not drained (destination count {count})"
  | startNotRecorded space addr =>
    unequal s!"{space}: object start at {hex addr} was not recorded"
  | overrunsNewTop space => unequal s!"{space}: last object overruns the new top"
  | tooManyReferences wide narrow payload metadata =>
    s!"too many references: ObjectShape \x7b wide_refs: {wide}, narrow_refs: {
      narrow}, payload_words: {payload}, metadata: {metadata} \x7d"
  | wideOutOfBounds index => s!"wide reference {index} out of bounds"
  | narrowOutOfBounds index => s!"narrow reference {index} out of bounds"
  | payloadOutOfBounds index => s!"payload word {index} out of bounds"
  | noMetadataSlot addr => s!"object at {hex addr} has no metadata slot"
  | emptyFill => failed "words > 0"

end Fault

/-! ## Computations that may fault -/

/-- A computation in two steps ends well exactly when both steps do. -/
theorem bind_eq_ok_iff {ε α β : Type} {first : Except ε α} {next : α → Except ε β} {b : β} :
    (first >>= next) = .ok b ↔ ∃ a, first = .ok a ∧ next a = .ok b := by
  cases first <;> simp [bind, Except.bind]

theorem pure_eq_ok_iff {α : Type} {a b : α} : (pure a : Except Fault α) = .ok b ↔ a = b := by
  simp [pure, Except.pure]

/-- A result that is guarded by a check. -/
theorem guard_eq_ok_iff {α : Type} {p : Prop} [Decidable p] {fault : Fault} {a b : α} :
    (if p then pure a else throw fault : Except Fault α) = .ok b ↔ p ∧ a = b := by
  split
  case isTrue h => exact ⟨fun heq => ⟨h, pure_eq_ok_iff.1 heq⟩, fun heq => pure_eq_ok_iff.2 heq.2⟩
  case isFalse h => exact ⟨nofun, fun heq => absurd heq.1 h⟩

end MarkCompact
