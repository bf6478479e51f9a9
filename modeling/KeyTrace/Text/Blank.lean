/-
The characters that count as white space in running text.
-/
import KeyTrace.Text

namespace KeyTrace

/-- Single characters of white space. -/
def blanks : List CodePoint :=
  [0x20, 0x85, 0xa0, 0x1680, 0x2028, 0x2029, 0x202f, 0x205f, 0x3000]

/-- White space: of class Zs, or of bidirectional class WS, B or S. -/
def isBlank (c : CodePoint) : Bool :=
  (9 ≤ c && c ≤ 13) || (0x1c ≤ c && c ≤ 0x1f) || (0x2000 ≤ c && c ≤ 0x200a) || blanks.contains c

/-- The text without white space at its ends. -/
def Text.strip (t : Text) : Text := Text.trim isBlank t

end KeyTrace
