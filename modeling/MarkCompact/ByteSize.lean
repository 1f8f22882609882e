import MarkCompact.Decimal.Format

/-!
# Sizes for people

A size is shown in bytes below one kibibyte, and otherwise in `K`, `M` or `G` with one place.
Mebibytes are used up to eight gibibytes.
-/

namespace MarkCompact

/-- The text of a size in bytes, given as a double. -/
def showSize (size : Float) : String :=
  let kilo := size / 1024.0
  let mega := kilo / 1024.0
  let giga := mega / 1024.0
  if kilo < 1.0 then plainDecimal size ++ "B"
  else if mega < 1.0 then fixedDecimal 1 kilo ++ "K"
  else if giga < 8.0 then fixedDecimal 1 mega ++ "M"
  else fixedDecimal 1 giga ++ "G"

/-- The text of a size in bytes. -/
def showBytes (bytes : Nat) : String :=
  showSize bytes.toUInt64.toFloat

end MarkCompact
