import MarkCompact.ByteSize
import MarkCompact.Fault

/-!
# Failing to start

Bringing a collector up can be refused: the settings do not fit the covered range, or the system
does not grant memory for a side table.  Refusals are recoverable and carry their cause; a broken
invariant during set-up is a fault as everywhere else.
-/

namespace MarkCompact

/-- Why settings, spaces and covered range do not fit together. -/
inductive Misfit where
  | noWorkers
  | regionTooSmall (regionLog minimum : Nat)
  | regionTooLarge (regionLog : Nat)
  | blockTooLarge (blockLog regionLog : Nat)
  | coveredNotMultiple (bytes regionBytes : Nat)
  | noSpaces
  | spaceInverted (space : String)
  | spaceOutside (space : String) (bottom limit start stop : Nat)
  | spaceMisaligned (space : String)
  | spaceTop (space : String) (top : Nat)
  | spaceOverlaps (space : String)
  | tooManyRegions (regions : Nat)
  deriving DecidableEq, Repr

/-- The text of a misfit. -/
def Misfit.message : Misfit → String
  | noWorkers => "parallel_gc_threads must be at least 1"
  | regionTooSmall regionLog minimum =>
    s!"region size 2^{regionLog} words is below the minimum of 2^{minimum}"
  | regionTooLarge regionLog => s!"region size 2^{regionLog} words does not fit the live size field"
  | blockTooLarge blockLog regionLog =>
    s!"block size 2^{blockLog} words exceeds region size 2^{regionLog} words"
  | coveredNotMultiple bytes regionBytes =>
    s!"covered range of {bytes} bytes is not a multiple of the region size ({regionBytes} bytes)"
  | noSpaces => "at least one space is required"
  | spaceInverted space => s!"space {space} is empty or inverted"
  | spaceOutside space bottom limit start stop =>
    s!"space {space} {hexRange bottom limit} is outside of the covered range {hexRange start stop}"
  | spaceMisaligned space => s!"space {space} is not region aligned"
  | spaceTop space top => s!"space {space} has an invalid top {hex top}"
  | spaceOverlaps space => s!"space {space} overlaps or precedes the previous space"
  | tooManyRegions regions => s!"{regions} regions overflow the address space"

/-- Why a collector could not be brought up. -/
inductive Refusal where
  /-- The configuration is inconsistent. -/
  | invalidConfiguration (misfit : Misfit)
  /-- The system did not map `bytes` bytes for `what`. -/
  | reservation (what : String) (bytes : Nat)
  deriving DecidableEq, Repr

/-- The text of a refusal. -/
def Refusal.message : Refusal → String
  | invalidConfiguration misfit => "invalid collector configuration: " ++ misfit.message
  | reservation what bytes =>
    s!"collector unavailable: failed to reserve {showBytes bytes} for {
      what}: Cannot allocate memory"

/-- How set-up fails. -/
inductive SetupError where
  | refused (cause : Refusal)
  | broken (fault : Fault)
  deriving DecidableEq, Repr

/-- A set-up that fails for a misfit. -/
def refuse {α : Type} (misfit : Misfit) : Except SetupError α :=
  .error (.refused (.invalidConfiguration misfit))

instance : MonadLift (Except Fault) (Except SetupError) where
  monadLift
    | .ok a => .ok a
    | .error fault => .error (.broken fault)

end MarkCompact
