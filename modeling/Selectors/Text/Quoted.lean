import Selectors.Text.Invisible

/-!
# Quoted texts in reports

A report shows a text between double quotes.  A quote or a backslash inside has a backslash in
front of it, line feed, carriage return, tab and NUL have short forms, and other invisible
characters are shown by their number.
-/

namespace Selectors

/-- How a quoted text shows a character. -/
def quotedChar (c : Char) : String :=
  if c = '\x22' then "\\\""
  else if c = '\\' then "\\\\"
  else if c = '\n' then "\\n"
  else if c = '\r' then "\\r"
  else if c = '\t' then "\\t"
  else if c = '\x00' then "\\0"
  else if isInvisible c then "\\u\x7b" ++ String.ofList (Nat.toDigits 16 c.toNat) ++ "\x7d"
  else c.toString

/-- The text between double quotes. -/
def quoted (s : String) : String :=
  "\"" ++ s.toList.foldr (fun c r => quotedChar c ++ r) "" ++ "\""

end Selectors
