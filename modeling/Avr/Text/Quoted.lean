import Avr.Text.Numeral
import Avr.Text.Visible

namespace Avr.Text

/-- `quote` is the mark that ends the text. -/
def escape (quote : Char) (c : Char) : String :=
  if c = '\x00' then "\\0"
  else if c = '\t' then "\\t"
  else if c = '\r' then "\\r"
  else if c = '\n' then "\\n"
  else if c = '\\' || c = quote then "\\" ++ String.singleton c
  else if isVisible c then String.singleton c
  else "\\u\x7b" ++ String.ofList (Nat.toDigits 16 c.toNat) ++ "\x7d"

def quoted (s : String) : String := "\"" ++ String.join (s.toList.map (escape '"')) ++ "\""

def quotedChar (c : Char) : String := "'" ++ escape '\'' c ++ "'"

end Avr.Text
