/-
Names in quotes, as messages and listings show them: in single quotes, or in
double quotes if that saves escaping. Quotes, backslashes and what cannot be
seen are escaped.
-/
import KeyTrace.Text.Printable

namespace KeyTrace.Quoted

/-- A hexadecimal digit. -/
def hexDigit (n : Nat) : CodePoint := if n < 10 then 48 + n else 87 + n

/-- The last `width` hexadecimal digits of a number. -/
def hexDigits : (width : Nat) → Nat → Text
  | 0, _ => []
  | w + 1, n => hexDigits w (n / 16) ++ [hexDigit (n % 16)]

/-- The quote for a text: the double quote only for a text that has single quotes and no double
ones. -/
def quoteFor (t : Text) : CodePoint := if t.contains 39 && !t.contains 34 then 34 else 39

/-- An escape by number, as short as the code point allows. -/
def numericEscape (c : CodePoint) : Text :=
  if c < 0x100 then text "\\x" ++ hexDigits 2 c
  else if c < 0x10000 then text "\\u" ++ hexDigits 4 c
  else text "\\U" ++ hexDigits 8 c

/-- One character between quotes. -/
def encodeOne (quote c : CodePoint) : Text :=
  if c = quote ∨ c = 92 then [92, c]
  else if c = 9 then text "\\t"
  else if c = 10 then text "\\n"
  else if c = 13 then text "\\r"
  else if isPrintable c then [c]
  else numericEscape c

/-- A text in quotes. -/
def encode (t : Text) : Text :=
  quoteFor t :: t.flatMap (encodeOne (quoteFor t)) ++ [quoteFor t]

/-- A list of texts in quotes. -/
def encodeList (ts : List Text) : Text :=
  [cp '['] ++ Text.join (text ", ") (ts.map encode) ++ [cp ']']

end KeyTrace.Quoted
