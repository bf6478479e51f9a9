/-
Paths by their parts.

A path hangs from the root or from wherever the reader stands, and has parts
between slashes; empty parts and `.` are dropped, `..` stays. `resolve` alone
takes `..` away, by dropping the part before it.
-/
import KeyTrace.Text

namespace KeyTrace

/-- What a path hangs from. Exactly two slashes at its start are a root of their own. -/
inductive Anchor where
  | here | root | doubleRoot
deriving DecidableEq, Repr

structure Path where
  anchor : Anchor
  parts : List Text
deriving DecidableEq, Repr

namespace Path

def slash : CodePoint := cp '/'

def dot : CodePoint := cp '.'

/-- The part that leads to the directory above. -/
def upPart : Text := [dot, dot]

/-- The parts that say where to go. -/
def isPart (p : Text) : Bool := !p.isEmpty && p != [dot]

def anchorOf (t : Text) : Anchor :=
  match (t.takeWhile (· == slash)).length with
  | 0 => .here
  | 2 => .doubleRoot
  | _ => .root

/-- Reads a path. -/
def ofText (t : Text) : Path := ⟨anchorOf t, (Text.splitOn [slash] t).filter isPart⟩

def Anchor.text : Anchor → Text
  | .here => []
  | .root => [slash]
  | .doubleRoot => [slash, slash]

/-- Writes a path. -/
def toText (p : Path) : Text :=
  if p.anchor = .here ∧ p.parts = [] then [dot]
  else Anchor.text p.anchor ++ Text.join [slash] p.parts

/-- The last part, empty if there is none. -/
def name (p : Path) : Text := p.parts.getLastD []

/-- The path without its last part. -/
def parent (p : Path) : Path := { p with parts := p.parts.dropLast }

/-- A path seen from another; one that hangs from the root stays as it is. -/
def append (p q : Path) : Path := if q.anchor = .here then ⟨p.anchor, p.parts ++ q.parts⟩ else q

instance : Append Path := ⟨append⟩

/-- The part of a name from its last dot on; a dot at either end of the name does not count. -/
def suffixOfName (name : Text) : Text :=
  let tail := (name.reverse.takeWhile (· != dot)).reverse
  let stem := name.length - tail.length - 1
  if tail.isEmpty || stem = 0 || tail.length = name.length then [] else dot :: tail

/-- The extension of the last part, with its dot. -/
def suffix (p : Path) : Text := suffixOfName p.name

/-- Walks one part on from the parts behind, the last of them first. -/
def step (behind : List Text) (part : Text) : List Text :=
  if part = upPart then behind.tail else part :: behind

/-- The path seen from a directory, without `..`. The root is above itself. -/
def resolve (workingDirectory p : Path) : Path :=
  let p := workingDirectory ++ p
  ⟨p.anchor, (p.parts.foldl step []).reverse⟩

/-- What leads from a directory to a path below it. -/
def relativeTo? (p base : Path) : Option Path :=
  if p.anchor = base.anchor ∧ p.parts.take base.parts.length = base.parts then
    some ⟨.here, p.parts.drop base.parts.length⟩
  else none

/-- The order of lists of parts, a proper start of a list coming before it. -/
def partsLE : List Text → List Text → Bool
  | [], _ => true
  | _ :: _, [] => false
  | a :: p, b :: q => if a = b then partsLE p q else Text.le a b

end Path
end KeyTrace
