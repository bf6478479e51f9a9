/-
Parsing a whole program.

The rules of the grammar ask for goals; `parseGoal` ties them together, each goal
inside another taking one step off a budget that the length of the program
gives. Comments are put back into the tree where they stood, each into the
smallest construct around it.
-/
import KeyTrace.Grammar.Statements

namespace KeyTrace.Grammar

open KeyTrace.Grammar.Parser

/-- The rule of a goal. -/
def goalRule (sub : Sub) : Goal → Parser Node
  | .operation ctx level assertions => operation sub ctx level assertions
  | .statement => statement sub
  | .block inExpression => block sub inExpression
  | .type => typeExpression sub
  | .pattern members => pattern sub members
  | .jsxElement => jsxElement sub

/-- Parses a goal in which others are nested at most `depth` deep. -/
def parseGoal : (depth : Nat) → Goal → Parser Node
  | 0 => fun _ => fail
  | depth + 1 => goalRule (parseGoal depth)

/-- The line that names the interpreter of a script. -/
def interpreterLine : Parser Node := do
  let start ← here
  guard (start == 0 || (start == 1 && (← fun i c => some (i.char 0 == 0xFEFF, c))))
  symbolRaw (text "#!")
  let stop ← fun i c => some (i.skipWhile (· != 10) c.pos, c)
  advance stop
  node .clause start []

/-- A program up to its end. -/
def program (sub : Sub) : Parser Node := do
  let hashBang ← option? (do
    let _ ← fun i c => some ((), if i.char c.pos == 0xFEFF then { c with pos := c.pos + 1 } else c)
    interpreterLine)
  settle
  let ss ← statements sub
  guard ((← peek 0) == endMark)
  fun i c => some (.mk .none .program ⟨0, i.chars.size⟩ (hashBang.toList ++ ss), c)

mutual

/-- Puts comments, in order, among the children of a node or further down. -/
def attach : Node → List Node → Node
  | .mk r k s cs, comments => .mk r k s (attachAll cs comments)

def attachAll : List Node → List Node → List Node
  | [], comments => comments
  | c :: cs, comments =>
    let earlier := comments.takeWhile fun n => n.span.start < c.span.start
    let later := comments.dropWhile fun n => n.span.start < c.span.start
    let inside := later.takeWhile fun n => n.span.stop ≤ c.span.stop
    let outside := later.dropWhile fun n => n.span.stop ≤ c.span.stop
    earlier ++ attach c inside :: attachAll cs outside

end

/-- The tree of a program over positions of characters. -/
def parseChars (i : Input) : Option Node :=
  match program (parseGoal (4 * i.chars.size + 64)) i ⟨0, 0, []⟩ with
  | some (n, c) => some (attach n c.comments.reverse)
  | none => none

/-- The byte offset of every character, and the end. -/
def byteOffsets (pieces : List Utf8.Piece) : Array Nat :=
  pieces.foldl (fun a p => a.push (a.back?.getD 0 + p.width)) #[0]

/-- The tree of a program in one grammar, if it is a program of that grammar. -/
def parse (d : Dialect) (source : Source) : Option Node :=
  let pieces := Utf8.pieces source.bytes.toList
  let chars := (pieces.map fun p => p.point.getD brokenByte).toArray
  let offsets := byteOffsets pieces
  (parseChars ⟨d, chars⟩).map
    (Node.mapSpan fun s => ⟨offsets.getD s.start 0, offsets.getD s.stop 0⟩)

end KeyTrace.Grammar
