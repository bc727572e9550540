import RecordLayout.Text.Printable

/-!
# Quoted text

Debug text shows a string between double quotes. The quote and the backslash are escaped by a
backslash, some controls by a letter or zero, and every other character that is not shown as itself
by its code point in lower-case hexadecimal digits between braces.
-/

namespace RecordLayout.Text

/-- The escaped form of one character. -/
def quotedChar (c : Char) : String :=
  if c = '\t' then "\\t"
  else if c = '\r' then "\\r"
  else if c = '\n' then "\\n"
  else if c.toNat = 0 then "\\0"
  else if c = '\\' then "\\\\"
  else if c = '"' then "\\\""
  else if isPrintable c then c.toString
  else "\\u\x7b" ++ String.ofList (Nat.toDigits 16 c.toNat) ++ "\x7d"

/-- A string between double quotes. -/
def quoted (s : String) : String := "\"" ++ String.join (s.toList.map quotedChar) ++ "\""

end RecordLayout.Text
