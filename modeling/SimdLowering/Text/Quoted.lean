/-
Quoted text.

Text in printed attributes stands between double quotes. The quote and the
backslash are written with a backslash before them, four controls have a
letter of their own, and any other character without a mark of its own is
written as its number in base sixteen between braces.
-/
import SimdLowering.Text.Markless

set_option autoImplicit false

namespace SimdLowering

namespace Quoted

/-- One character inside quotes. -/
def escapeChar (c : Char) : String :=
  if c = '"' then "\\\""
  else if c = '\\' then "\\\\"
  else if c = '\n' then "\\n"
  else if c = '\t' then "\\t"
  else if c = '\r' then "\\r"
  else if c = '\x00' then "\\0"
  else if isMarkless c then
    "\\u\x7b" ++ String.ofList (Nat.toDigits 16 c.toNat) ++ "\x7d"
  else String.singleton c

end Quoted

/-- The text between quotes. -/
def quoted (s : String) : String :=
  "\"" ++ String.join (s.toList.map Quoted.escapeChar) ++ "\""

end SimdLowering
