/-
Tables in boxes of lines, with a title over them and a heavy head.

Columns are as wide as their widest cell. If they do not fit side by side, the
widest give way first, and their cells are broken into lines.
-/
import KeyTrace.Text.Wrap

namespace KeyTrace

/-- A column of a table. -/
structure Table.Column where
  title : Text
  alignment : Wrap.Alignment

/-- A table. -/
structure Table where
  title : Text
  columns : List Table.Column
  rows : List (List Text)

namespace Table

/-- The blanks on both sides of a cell. -/
def padding : Nat := 2

/-- The lines of a text, however they end. -/
def splitLines (t : Text) : List Text :=
  let ends (c : CodePoint) : Bool :=
    c == 10 || (0x1c ≤ c && c ≤ 0x1e) || c == 0x85 || c == 0x2028 || c == 0x2029
  Text.splitOn [10] (t.map fun c => if ends c then 10 else c)

/-- The cells that a text needs. -/
def textWidth (t : Text) : Nat := ((splitLines t).map Text.cells).foldl max 0

/-- The width that a cell asks for. -/
def cellWidthIn (limit : Nat) (t : Text) : Nat := min limit (min limit (textWidth t) + padding)

/-- The cells of a column, its title first. -/
def column (t : Table) (i : Nat) (c : Column) : List Text :=
  c.title :: t.rows.map fun r => r.getD i []

/-- The width that a column asks for. -/
def columnWidth (limit : Nat) (cells : List Text) : Nat :=
  (cells.map (cellWidthIn limit)).foldl max 0

/-- Division of a whole to the nearest number, a half going to the even neighbour. -/
def roundedQuotient (n d : Nat) : Nat :=
  let q := n / d
  let r := n % d
  if 2 * r < d then q else if 2 * r > d then q + 1 else if q % 2 = 0 then q else q + 1

/-- Takes a total off some of the values, in even shares of what is left, none taking off more than
its limit. -/
def reduce (limit : Nat) (total shares : Nat) : List (Nat × Bool) → List Nat
  | [] => []
  | (v, takesPart) :: rest =>
    if takesPart && shares > 0 then
      let d := min limit (roundedQuotient total shares)
      (v - d) :: reduce limit (total - d) (shares - 1) rest
    else v :: reduce limit total shares rest

/-- Makes columns narrower until they fit, the widest first. -/
def collapse (available : Nat) : (fuel : Nat) → List Nat → List Nat
  | 0, widths => widths
  | fuel + 1, widths =>
    let excess := widths.foldl (· + ·) 0 - available
    if excess = 0 then widths
    else
      let widest := widths.foldl max 0
      let second := (widths.filter (· ≠ widest)).foldl max 0
      let marked := widths.map fun w => (w, w == widest)
      let shares := (marked.filter (·.2)).length
      collapse available fuel (reduce (min excess (widest - second)) excess shares marked)

/-- The widths of the columns of a table, for a number of cells in all. -/
def widths (t : Table) (total : Nat) : List Nat :=
  let available := total - (t.columns.length + 1)
  let wanted := t.columns.zipIdx.map fun c => columnWidth available (t.column c.2 c.1)
  collapse available (wanted.foldl (· + ·) 0 + 1) wanted

/-- The lines of a cell. -/
def cellLines (c : Column) (width : Nat) (t : Text) : List Text :=
  let inner := width - padding
  (Wrap.lay ⟨inner, .ellipsis, c.alignment⟩ t).map fun line =>
    Wrap.resize width ([32] ++ Wrap.resize inner line ++ [32])

/-- Pieces with a line before, between and after them. -/
def ruled (left middle right : Char) (pieces : List Text) : Text :=
  [cp left] ++ Text.join [cp middle] pieces ++ [cp right]

/-- The lines of a row. -/
def rowLines (t : Table) (widths : List Nat) (edge : Char) (row : List Text) : List Text :=
  let cells := (t.columns.zip widths).zipIdx.map fun c =>
    cellLines c.1.1 c.1.2 (row.getD c.2 [])
  let height := (cells.map List.length).foldl max 1
  (List.range height).map fun i =>
    ruled edge edge edge ((cells.zip widths).map fun c => c.1.getD i (Wrap.blank c.2))

/-- A line across the table. -/
def rule (widths : List Nat) (left bar middle right : Char) : Text :=
  ruled left middle right (widths.map fun w => List.replicate w (cp bar))

/-- The lines of a table on a terminal of some width. -/
def lines (t : Table) (total : Nat) : List Text :=
  let ws := t.widths total
  let width := ws.foldl (· + ·) 0 + ws.length + 1
  Wrap.lay ⟨width, .fold, .center⟩ t.title
    ++ [rule ws '┏' '━' '┳' '┓']
    ++ t.rowLines ws '┃' (t.columns.map (·.title))
    ++ [rule ws '┡' '━' '╇' '┩']
    ++ t.rows.flatMap (t.rowLines ws '│')
    ++ [rule ws '└' '─' '┴' '┘']

end Table
end KeyTrace
