import MarkCompact.Text.Hex
import MarkCompact.Text.Hidden

/-!
# Quoted text

A name in a diagnostic is quoted: the quote and the backslash are escaped, four control characters
have letters of their own, and other characters without a picture are written by number.
-/

namespace MarkCompact

/-- How a character is written between quotes. -/
def quoteChar (c : Char) : String :=
  match c with
  | '\x00' => "\\0"
  | '\t' => "\\t"
  | '\r' => "\\r"
  | '\n' => "\\n"
  | '"' => "\\\""
  | '\\' => "\\\\"
  | c => if isHidden c then "\\u\x7b" ++ hexDigits c.toNat ++ "\x7d" else String.singleton c

/-- A text between quotes. -/
def quoted (s : String) : String :=
  "\"" ++ String.join (s.toList.map quoteChar) ++ "\""

end MarkCompact
