import VariHist.Text.Hidden

/-!
# Quoted names

How a column name or an identifier is shown inside a descriptive text: between double quotes,
with the quote, the backslash and the common controls escaped by a letter, and every other hidden
character by its code number in lower-case hexadecimal, as `\\u{301}`.
-/

namespace VariHist.Text

/-- The lower-case hexadecimal digits of a number, without leading zeros. -/
def hexText (n : Nat) : String :=
  String.ofList (Nat.toDigits 16 n)

/-- One character of a quoted name. -/
def quotedChar (c : Char) : String :=
  if c = '"' then "\\\""
  else if c = '\\' then "\\\\"
  else if c = '\n' then "\\n"
  else if c = '\r' then "\\r"
  else if c = '\t' then "\\t"
  else if c.toNat = 0 then "\\0"
  else if isHidden c then "\\u\x7b" ++ hexText c.toNat ++ "\x7d"
  else String.singleton c

/-- A name between double quotes. -/
def quoted (s : String) : String :=
  "\"" ++ String.join (s.toList.map quotedChar) ++ "\""

end VariHist.Text
