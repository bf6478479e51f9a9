/-
Cooking: the value that the raw text of a string or template literal stands for.

An escape begins at a backslash, and the longest form that fits is taken:
`\u{N}`, `\uXXXX`, `\xXX`, one to three octal digits, a line break, or any one
character. `cook` fails on one thing only, a `\u{N}` past the last code point.
-/
import KeyTrace.Text

namespace KeyTrace.Literal

/-- An escape that denotes no code point, by its text after the backslash. -/
structure InvalidEscape where
  body : Text
deriving DecidableEq, Repr

/-- What one escape stands for. -/
inductive Escape where
  /-- A code point given by number. -/
  | numeric (point : Nat)
  /-- A number between braces, whose text is kept for a complaint about it. -/
  | braced (point : Nat) (body : Text)
  /-- A line break that is passed over. -/
  | continuation
  /-- Any other character, with its meaning after a backslash. -/
  | single (point : CodePoint)
deriving DecidableEq, Repr

/-- The characters with a meaning of their own after a backslash. -/
def singleMeaning (c : CodePoint) : CodePoint :=
  if c = cp 'n' then 10
  else if c = cp 't' then 9
  else if c = cp 'r' then 13
  else if c = cp 'b' then 8
  else if c = cp 'f' then 12
  else if c = cp 'v' then 11
  else c

/-- LF, CR, and the line and paragraph separators end a line. -/
def isLineBreak (c : CodePoint) : Bool := c == 10 || c == 13 || c == 0x2028 || c == 0x2029

/-- The hexadecimal digits between braces at the start of a text, if at least one is there. -/
def bracedDigits? (t : Text) : Option Text :=
  match t with
  | 123 :: r =>
    let digits := r.takeWhile isHexDigit
    match digits, r.dropWhile isHexDigit with
    | _ :: _, 125 :: _ => some digits
    | _, _ => none
  | _ => none

/-- Exactly `n` hexadecimal digits at the start of a text. -/
def fixedDigits? (n : Nat) (t : Text) : Option Text :=
  let digits := t.take n
  if digits.length = n && digits.all isHexDigit then some digits else none

/-- The escape whose text after the backslash starts `t`, and how many code points of `t` it
takes. There is none at the end of the text. -/
def readEscape : Text → Option (Escape × Nat)
  | [] => none
  | c :: r =>
    if c = cp 'u' then
      match bracedDigits? r with
      | some ds => some (.braced (ofDigits 16 ds) (c :: 123 :: ds ++ [125]), ds.length + 3)
      | none =>
        match fixedDigits? 4 r with
        | some ds => some (.numeric (ofDigits 16 ds), 5)
        | none => some (.single c, 1)
    else if c = cp 'x' then
      match fixedDigits? 2 r with
      | some ds => some (.numeric (ofDigits 16 ds), 3)
      | none => some (.single c, 1)
    else if isOctalDigit c then
      let ds := ((c :: r).take 3).takeWhile isOctalDigit
      some (.numeric (ofDigits 8 ds), ds.length)
    else if c = 13 && r.head? = some 10 then some (.continuation, 2)
    else if isLineBreak c then some (.continuation, 1)
    else some (.single c, 1)

/-- The code points an escape stands for. -/
def Escape.value : Escape → Except InvalidEscape Text
  | .numeric p => .ok [p]
  | .braced p body => if p > maxCodePoint then .error ⟨body⟩ else .ok [p]
  | .continuation => .ok []
  | .single c => .ok [singleMeaning c]

/-- Cooks a text of which the first `skip` code points belong to an escape already read. -/
def cookFrom : (skip : Nat) → Text → Except InvalidEscape Text
  | _, [] => .ok []
  | k + 1, _ :: r => cookFrom k r
  | 0, c :: r =>
    if c = 92 then
      match readEscape r with
      | none => .ok [c]
      | some (e, n) => do return (← e.value) ++ (← cookFrom n r)
    else do return c :: (← cookFrom 0 r)

/-- The value of the raw text of a string or template literal. -/
def cook (raw : Text) : Except InvalidEscape Text := cookFrom 0 raw

/-- CRLF reads as LF. -/
def joinLineEnds : Text → Text
  | [] => []
  | [c] => [c]
  | a :: b :: r => if a = 13 && b = 10 then 10 :: joinLineEnds r else a :: joinLineEnds (b :: r)

/-- The value of a stretch of template text. -/
def cookTemplate (raw : Text) : Except InvalidEscape Text := cook (joinLineEnds raw)

/-- The complaint about an escape that denotes no code point. -/
def InvalidEscape.message (e : InvalidEscape) : Text :=
  text "Code point out of range: \\" ++ e.body

end KeyTrace.Literal
