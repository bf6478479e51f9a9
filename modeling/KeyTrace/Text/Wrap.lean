/-
Text laid out in lines of a given width: where lines break, how a line that is
too long is cut, and how the rest of a line is filled.
-/
import KeyTrace.Text.Blank
import KeyTrace.Text.CellWidth

namespace KeyTrace.Wrap

/-- What happens to a word that is longer than a line. -/
inductive Overflow where
  /-- It goes on in the next line. -/
  | fold
  /-- It is cut, and a dot sign says so. -/
  | ellipsis
deriving DecidableEq, Repr

/-- Where a line stands in its width. -/
inductive Alignment where
  /-- Lines are left as they are. -/
  | free
  | left | center | right
deriving DecidableEq, Repr

/-- How text is laid out. -/
structure Layout where
  width : Nat
  overflow : Overflow
  alignment : Alignment

/-- Blanks. -/
def blank (n : Nat) : Text := List.replicate n 32

/-- The text without white space at its end. -/
def trimEnd (t : Text) : Text := (t.reverse.dropWhile isBlank).reverse

/-- The words of a text, each with the white space after it, the first also with the white space
before it. `word` is the word being read, backwards; `open` says that it has not ended yet. -/
def wordsFrom (word : Text) (inside : Bool) : Text → List Text
  | [] => if word.all isBlank then [] else [word.reverse]
  | c :: t =>
    if isBlank c then wordsFrom (c :: word) false t
    else if inside || word.all isBlank then wordsFrom (c :: word) true t
    else word.reverse :: wordsFrom [c] true t

/-- The words of a text. -/
def words (t : Text) : List Text := wordsFrom [] false t

/-- Cuts a word into pieces of at most `width` cells. `piece` is the piece being filled, backwards,
with its cells. -/
def chopFrom (width : Nat) (piece : Text) (cells : Nat) : Text → List Text
  | [] => [piece.reverse]
  | c :: t =>
    if cells + cellWidth c > width then piece.reverse :: chopFrom width [c] (cellWidth c) t
    else chopFrom width (c :: piece) (cells + cellWidth c) t

def chop (width : Nat) (t : Text) : List Text := chopFrom width [] 0 t

/-- Starts a line with a piece, unless it is the first of all. -/
def startLine (lines : List Text) (piece : Text) : List Text :=
  if lines.all (·.isEmpty) then [piece] else piece :: lines

/-- Puts a piece at the end of the last line. The lines are kept backwards. -/
def continueLine (lines : List Text) (piece : Text) : List Text :=
  match lines with
  | [] => [piece]
  | l :: ls => (l ++ piece) :: ls

/-- Adds a word to lines, the last of which comes first and has `used` cells. -/
def addWord (overflow : Overflow) (width : Nat) (state : List Text × Nat) (word : Text) :
    List Text × Nat :=
  let (lines, used) := state
  let length := (trimEnd word).cells
  if used + length ≤ width then (continueLine lines word, used + word.cells)
  else if length > width then
    match overflow with
    | .fold =>
      let pieces := chop width word
      (pieces.foldl startLine lines, (pieces.getLastD []).cells)
    | .ellipsis => (startLine lines word, word.cells)
  else if used ≠ 0 then (startLine lines word, word.cells)
  else (continueLine lines word, used)

/-- Breaks a line into lines that fit, except for words that do not. -/
def breakLine (overflow : Overflow) (width : Nat) (t : Text) : List Text :=
  match (words t).foldl (addWord overflow width) ([], 0) with
  | ([], _) => [t]
  | (lines, _) => lines.reverse

/-- Drops white space at the end as far as a line is too long. -/
def trimOverhang (width : Nat) (t : Text) : Text :=
  if t.length > width then
    t.take (t.length - min (t.length - (trimEnd t).length) (t.length - width))
  else t

/-- Looks for the start of a text that fills `total` cells, between two lengths. -/
def bisect (total : Nat) (t : Text) : (fuel low high : Nat) → Text
  | 0, _, _ => t
  | fuel + 1, low, high =>
    let middle := (low + high) / 2
    let start : Text := t.take (middle + 1)
    if start.cells = total + 1 ∧ cellWidth (t.getD middle 0) = 2 then start.dropLast ++ [32]
    else if start.cells = total then start
    else if start.cells > total then bisect total t fuel low middle
    else bisect total t fuel middle high

/-- The text cut or filled to a number of cells; half a wide character is a blank. -/
def resize (total : Nat) (t : Text) : Text :=
  if t.cells ≤ total then t ++ blank (total - t.cells)
  else if total = 0 then []
  else bisect total t (2 * t.length + 2) 0 t.length

/-- The sign of a cut. -/
def ellipsis : CodePoint := 0x2026

/-- Cuts a line that is too long. -/
def truncate (overflow : Overflow) (width : Nat) (t : Text) : Text :=
  if t.cells > width then
    match overflow with
    | .ellipsis => resize (width - 1) t ++ [ellipsis]
    | .fold => resize width t
  else t

/-- Sets a line in its width. -/
def align (l : Layout) (t : Text) : Text :=
  match l.alignment with
  | .free => t
  | .left =>
    let t := truncate l.overflow l.width t
    t ++ blank (l.width - t.cells)
  | .center =>
    let t := truncate l.overflow l.width (trimEnd t)
    let t := blank ((l.width - t.cells) / 2) ++ t
    t ++ blank (l.width - t.cells)
  | .right =>
    let t := truncate l.overflow l.width (trimEnd t)
    blank (l.width - t.cells) ++ t

/-- The distance between tab stops. -/
def tabSize : Nat := 8

/-- Fills tabs up to the next stop; `column` is the cell that comes next. -/
def expandTabs (column : Nat) : Text → Text
  | [] => []
  | c :: t =>
    if c = 9 then
      let next := ((column + 1 + tabSize - 1) / tabSize) * tabSize
      blank (next - column) ++ expandTabs next t
    else c :: expandTabs (column + cellWidth c) t

/-- Lays out one line. -/
def layLine (l : Layout) (t : Text) : List Text :=
  (breakLine l.overflow l.width (expandTabs 0 t)).map fun line =>
    truncate l.overflow l.width (align l (trimOverhang l.width line))

/-- Lays out a text. -/
def lay (l : Layout) (t : Text) : List Text := (Text.splitOn [10] t).flatMap (layLine l)

end KeyTrace.Wrap
