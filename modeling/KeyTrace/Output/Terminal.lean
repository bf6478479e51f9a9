/-
Printing on a terminal.

A terminal that cannot show every character gets stand-ins for the signs that
the program prints.
-/
import KeyTrace.Text.Wrap

namespace KeyTrace

/-- What is known of a terminal. -/
structure Terminal where
  /-- The name of its encoding, in small letters. -/
  encoding : Text
  /-- The width of its lines in cells. -/
  width : Nat

namespace Terminal

/-- The signs that the program prints, and what stands in for them. -/
def standIns : List (CodePoint × Text) :=
  [(cp '✓', text "[OK]"), (cp '✗', text "[FAIL]"), (cp '⚠', text "[WARN]")]

/-- The encoding of a terminal that names none. -/
def usualEncoding : Text := text "utf-8"

/-- A terminal by the encoding that it claims. -/
def ofClaim (claim : Option Text) (width : Nat) : Terminal where
  encoding := match claim with
    | some (c :: cs) => (c :: cs).map fun d => if isUpperLetter d then d + 32 else d
    | _ => usualEncoding
  width := width

/-- Every character can be shown. -/
def showsAll (t : Terminal) : Bool :=
  let name := t.encoding.map fun c => if c = cp '_' then cp '-' else c
  name == text "utf-8" || name == text "utf8"

/-- The text with stand-ins where they are needed. -/
def sanitize (t : Terminal) (s : Text) : Text :=
  if t.showsAll then s else s.flatMap fun c => (standIns.lookup c).getD [c]

/-- The controls that move the cursor or ring are dropped. -/
def isDropped (c : CodePoint) : Bool := c == 7 || c == 8 || (11 ≤ c && c ≤ 13)

/-- The text without such controls. -/
def withoutControls (s : Text) : Text := s.filter fun c => !isDropped c

/-- What is written for several texts: they are joined, laid out, and ended. -/
def print (t : Terminal) (separator stop : Text) (texts : List Text) : Text :=
  let whole := Text.join separator (texts.map fun s => withoutControls (t.sanitize s))
  Text.join [10] (Wrap.lay ⟨t.width, .fold, .free⟩ whole) ++ stop

/-- What is written for one text on a line of its own. -/
def printLine (t : Terminal) (s : Text) : Text := t.print [32] [10] [s]

end Terminal
end KeyTrace
