import MarkCompact.Decimal.Numeral
import MarkCompact.Text.Blank
import MarkCompact.Word

/-!
# Settings

What a host can tune, the defaults, and how environment variables override them.

A number in a variable may carry a suffix: `k`, `m` or `g` for a power of 1024, and behind it a `b`
that means nothing, both in either case.  `ScaledNumeral.ofChars?` splits such a text into the
numeral and its factor; a text that does not read is as if the variable were unset.
-/

namespace MarkCompact

/-! ## Values of variables -/

/-- A double and the factor that its suffix asks for. -/
structure ScaledNumeral where
  value : Float
  factor : Nat

namespace ScaledNumeral

/-- The factor that a suffix letter stands for. -/
def factorOf? (c : Char) : Option Nat :=
  match c.toLower with
  | 'k' => some 1024
  | 'm' => some (1024 * 1024)
  | 'g' => some (1024 * 1024 * 1024)
  | _ => none

/-- Drops one `b` at the end of a text that is longer than that. -/
def dropByteMark (cs : List Char) : List Char :=
  match cs.getLast? with
  | some c => if 1 < cs.length ∧ c.toLower = 'b' then cs.dropLast else cs
  | none => cs

/-- Splits the suffix letter off. -/
def splitFactor (cs : List Char) : List Char × Nat :=
  match cs.getLast?.bind factorOf? with
  | some factor => (cs.dropLast, factor)
  | none => (cs, 1)

/-- Reads a numeral with its suffix; blanks around it do not count. -/
def ofChars? (cs : List Char) : Option ScaledNumeral :=
  let (digits, factor) := splitFactor (dropByteMark (trimBlank cs))
  (readDouble? digits).map fun value => ⟨value, factor⟩

end ScaledNumeral

/-- The natural number below a double; negative numbers and not-a-number give zero, and numbers past
the last word the last word. -/
def truncate (x : Float) : Nat :=
  x.toUInt64.toNat

/-- Reads a count: the numeral is truncated first and scaled by its suffix then. -/
def readCount (text : String) : Except Fault (Option Nat) :=
  match ScaledNumeral.ofChars? text.toList with
  | none => pure none
  | some n => do
    let count ← Word.mul (truncate n.value) n.factor
    pure (some count)

/-- Reads a double; a suffix is accepted and does not count. -/
def readRatio (text : String) : Option Float :=
  (ScaledNumeral.ofChars? text.toList).map (·.value)

/-- Reads a switch. -/
def readSwitch (text : String) : Option Bool :=
  match String.ofList (trimBlank text.toList) with
  | "1" => some true
  | "true" => some true
  | "yes" => some true
  | "on" => some true
  | "0" => some false
  | "false" => some false
  | "no" => some false
  | "off" => some false
  | _ => none

/-! ## The settings -/

/-- What a host can tune. -/
structure Settings where
  /-- Workers of a collection. -/
  workers : Nat
  /-- Binary logarithm of the region size in words. -/
  regionLog : Nat := 9
  /-- Binary logarithm of the block size in words. -/
  blockLog : Nat := 7
  /-- Whether collections may leave a dense prefix in place. -/
  useDensePrefix : Bool := true
  /-- Mean of the dead wood limit, in percent. -/
  deadWoodMean : Nat := 50
  /-- Standard deviation of the dead wood limit, in percent. -/
  deadWoodDeviation : Nat := 80
  /-- Collections between two maximum compactions. -/
  maximumInterval : Nat := 20
  /-- The collection with this number is a maximum compaction. -/
  firstMaximum : Nat := 3
  /-- Tasks per worker that a large dense prefix is divided into. -/
  prefixTasksPerWorker : Nat := 4
  /-- Whether a collection checks its result. -/
  verify : Bool := true
  deriving DecidableEq, Repr

namespace Settings

/-- Reads the variable `name` with `read`, if it is set. -/
def override {α : Type} (lookup : String → Option String) (read : String → Except Fault (Option α))
    (name : String) (default : α) : Except Fault α :=
  match lookup name with
  | none => pure default
  | some text => do
    let value? ← read text
    pure (value?.getD default)

/-- The defaults on a machine with `processors` processors, overridden by the variables that are
set. -/
def ofEnvironment (processors : Nat) (lookup : String → Option String) : Except Fault Settings := do
  let count := override lookup readCount
  let switch := override lookup fun text => pure (readSwitch text)
  let percent := override lookup fun text => pure ((readRatio text).map truncate)
  let base : Settings := { workers := max processors 1 }
  let workers ← count "PC_GC_THREADS" base.workers
  let regionLog ← count "PC_LOG2_REGION_WORDS" base.regionLog
  let blockLog ← count "PC_LOG2_BLOCK_WORDS" base.blockLog
  let useDensePrefix ← switch "PC_USE_DENSE_PREFIX" base.useDensePrefix
  let deadWoodMean ← percent "PC_DEAD_WOOD_MEAN" base.deadWoodMean
  let deadWoodDeviation ← percent "PC_DEAD_WOOD_STD_DEV" base.deadWoodDeviation
  let maximumInterval ← count "PC_MAX_COMPACTION_INTERVAL" base.maximumInterval
  let firstMaximum ← count "PC_FIRST_MAX_COMPACTION_COUNT" base.firstMaximum
  let verify ← switch "PC_VERIFY" base.verify
  pure { base with
    workers, regionLog, blockLog, useDensePrefix, deadWoodMean, deadWoodDeviation, maximumInterval
    firstMaximum, verify }

end Settings

end MarkCompact
