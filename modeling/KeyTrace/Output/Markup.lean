/-
Text with style tags such as `[bold]` and `[/bold]`.

A tag is a bracket, a small letter or one of `#`, `/`, `@`, and anything but an
opening bracket up to the next closing one. A backslash in front makes it plain
text. Only the text is kept here; styles have no effect without colours.
-/
import KeyTrace.Text

namespace KeyTrace.Markup

def opening : CodePoint := cp '['

def closing : CodePoint := cp ']'

def backslash : CodePoint := 92

/-- A tag may begin with this. -/
def startsTag (c : CodePoint) : Bool := isLowerLetter c || c == 35 || c == 47 || c == 64

/-- The length of the tag at the start of a text. -/
def tagLength? : Text → Option Nat
  | o :: c :: t =>
    if o = opening && startsTag c then
      let body := t.takeWhile fun d => d != opening && d != closing
      if (t.drop body.length).head? = some closing then some (body.length + 3) else none
    else none
  | _ => none

/-- A piece of text with tags. -/
inductive Piece where
  /-- A tag after some backslashes. -/
  | tag (backslashes : Nat) (tag : Text)
  /-- Some backslashes before an opening bracket that opens no tag. -/
  | bracket (backslashes : Nat)
  | plain (c : CodePoint)
deriving DecidableEq, Repr

/-- Cuts a text into pieces. Of the text, `skip` characters belong to the last piece, and `slashes`
backslashes are not yet part of any. -/
def piecesFrom : (skip slashes : Nat) → Text → List Piece
  | _, slashes, [] => List.replicate slashes (.plain backslash)
  | k + 1, slashes, _ :: t => piecesFrom k slashes t
  | 0, slashes, c :: t =>
    if c = backslash then piecesFrom 0 (slashes + 1) t
    else if c = opening then
      match tagLength? (c :: t) with
      | some n => .tag slashes ((c :: t).take n) :: piecesFrom (n - 1) 0 t
      | none => .bracket slashes :: piecesFrom 0 0 t
    else List.replicate slashes (.plain backslash) ++ .plain c :: piecesFrom 0 0 t

def pieces (t : Text) : List Piece := piecesFrom 0 0 t

/-- A piece that reads as itself. -/
def Piece.escape : Piece → Text
  | tag n t => List.replicate (2 * n + 1) backslash ++ t
  | bracket n => List.replicate n backslash ++ [opening]
  | plain c => [c]

/-- A single backslash at the end is doubled, since a tag may follow. -/
def guardEnd (t : Text) : Text :=
  match t.reverse with
  | 92 :: 92 :: _ => t
  | 92 :: _ => t ++ [backslash]
  | _ => t

/-- The text in a form in which no part of it is a tag. -/
def escape (t : Text) : Text := guardEnd ((pieces t).flatMap Piece.escape)

/-- What a piece shows: of backslashes before a tag every other one, and the tag itself if one is
left over; before any other bracket all but one. -/
def Piece.shown : Piece → Text
  | tag n t => List.replicate (n / 2) backslash ++ if n % 2 = 1 then t else []
  | bracket n => List.replicate (n - 1) backslash ++ [opening]
  | plain c => [c]

/-- What a text with tags shows. -/
def shown (t : Text) : Text := if t.contains opening then (pieces t).flatMap Piece.shown else t

end KeyTrace.Markup
