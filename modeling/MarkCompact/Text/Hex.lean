/-!
# Hexadecimal text

Addresses are shown as `0x` and lower-case digits, without leading zeros; half-open ranges as
`[0x…, 0x…)`.  Every message that names an address goes through `hex`.
-/

namespace MarkCompact

/-- The digits of `n` in base sixteen; `0` for zero. -/
def hexDigits (n : Nat) : String :=
  String.ofList (Nat.toDigits 16 n)

/-- An address as messages show it. -/
def hex (n : Nat) : String :=
  "0x" ++ hexDigits n

/-- The range of addresses from `start` up to, not including, `stop`. -/
def hexRange (start stop : Nat) : String :=
  "[" ++ hex start ++ ", " ++ hex stop ++ ")"

end MarkCompact
