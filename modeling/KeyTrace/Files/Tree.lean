/-
Trees of files, and where a path leads in one.

Every directory of a tree has an entry of its own, the root apart. A path is
followed part by part, through directories that are there.
-/
import KeyTrace.Analysis.Traced
import KeyTrace.Path
import KeyTrace.Text.Utf8

namespace KeyTrace

/-- What stands at a place of a tree. -/
inductive FileEntry where
  | file (bytes : List UInt8)
  | directory
deriving DecidableEq, Repr

/-- A place of a tree: the names that lead to it from the root. -/
abbrev FilePlace := List Text

/-- A tree of files. -/
structure FileTree where
  entries : List (FilePlace × FileEntry)
deriving Repr

namespace FileTree

def empty : FileTree := ⟨[]⟩

/-- What stands at a place. -/
def entry? (t : FileTree) (place : FilePlace) : Option FileEntry :=
  if place = [] then some .directory else t.entries.lookup place

theorem entry?_of_ne {t : FileTree} {place : FilePlace} (hne : place ≠ []) :
    t.entry? place = t.entries.lookup place := if_neg hne

/-- Nothing stands at a place. -/
def erase (t : FileTree) (place : FilePlace) : FileTree :=
  ⟨t.entries.filter fun e => e.1 != place⟩

/-- Something stands at a place. -/
def put (t : FileTree) (place : FilePlace) (e : FileEntry) : FileTree :=
  ⟨(place, e) :: (t.erase place).entries⟩

/-- Makes the directories on the way to a place below `behind`. -/
def makeWay (behind : FilePlace) (t : FileTree) : (ahead : FilePlace) → FileTree
  | [] => t
  | [_] => t
  | n :: m :: ahead =>
    let place := behind ++ [n]
    let t := if (t.entry? place).isSome then t else t.put place .directory
    makeWay place t (m :: ahead)

/-- Writes a file, and the directories around it. -/
def writeFile (t : FileTree) (place : FilePlace) (bytes : List UInt8) : FileTree :=
  (makeWay [] t place).put place (.file bytes)

/-- Makes a directory, and the directories around it. -/
def makeDirectory (t : FileTree) (place : FilePlace) : FileTree :=
  let t := makeWay [] t place
  if (t.entry? place).isSome then t else t.put place .directory

/-- The longest name that a directory can hold, in bytes. -/
def maxNameLength : Nat := 255

/-- The longest path that can be asked for, in bytes. -/
def maxPathLength : Nat := 4095

/-- A surrogate that stands for a byte which is no part of a character. -/
def isByteSurrogate (c : CodePoint) : Bool := 0xdc80 ≤ c && c ≤ 0xdcff

/-- A character without a form in the names of files. -/
def isForeign (c : CodePoint) : Bool := isSurrogate c && !isByteSurrogate c

/-- The length of a name in bytes. -/
def byteLength (name : Text) : Nat :=
  (name.map fun c => if isByteSurrogate c then 1 else (Utf8.encode [c]).length).foldl (· + ·) 0

/-- Follows a path from a place; a name that is too long matters only where it is looked up. -/
def follow (t : FileTree) (place : FilePlace) :
    List Text → Except Unit (Option (FilePlace × FileEntry))
  | [] => .ok ((t.entry? place).map fun e => (place, e))
  | p :: ps =>
    match t.entry? place with
    | some .directory =>
      if p = Path.upPart then follow t place.dropLast ps
      else if byteLength p > maxNameLength then .error ()
      else follow t (place ++ [p]) ps
    | _ => .ok none

/-- The path can be asked for at all. -/
def isAskable (p : Path) : Bool := p.parts.all fun part => !part.any fun c => c == 0 || isForeign c

/-- What a path from the root leads to. -/
def locate (t : FileTree) (p : Path) : Except Failure (Option (FilePlace × FileEntry)) :=
  if !isAskable p then .ok none
  else if byteLength p.toText > maxPathLength then .error (.nameTooLong p.toText)
  else (t.follow [] p.parts).mapError fun _ => .nameTooLong p.toText

end FileTree

/-- A tree of files, and the directory from which paths are read. -/
structure Workspace where
  tree : FileTree
  directory : Path

namespace Workspace

/-- What a path leads to. -/
def locate (w : Workspace) (p : Path) : Except Failure (Option (FilePlace × FileEntry)) :=
  w.tree.locate (w.directory ++ p)

/-- A path leads to a file. -/
def isFile (w : Workspace) (p : Path) : Except Failure Bool := do
  match ← w.locate p with
  | some (_, .file _) => return true
  | _ => return false

/-- A path leads somewhere. -/
def holds (w : Workspace) (p : Path) : Except Failure Bool := do
  return (← w.locate p).isSome

/-- Every line break reads as LF. -/
def plainLines : Text → Text
  | [] => []
  | [c] => [if c = 13 then 10 else c]
  | a :: b :: r =>
    if a = 13 then
      if b = 10 then 10 :: plainLines r else 10 :: plainLines (b :: r)
    else a :: plainLines (b :: r)

/-- The text of bytes. -/
def textOf? (bytes : List UInt8) : Option Text := (Utf8.decode? bytes).map plainLines

/-- The text of a file, if there is a file and its bytes are a text. -/
def readText? (w : Workspace) (p : Path) : Option Text :=
  match w.locate p with
  | .ok (some (_, .file bytes)) => textOf? bytes
  | _ => none

/-- The path from the root without `..`, if every part of it can be asked for. -/
def resolve (w : Workspace) (p : Path) : Except Failure Path :=
  match p.parts.find? fun part => part.any FileTree.isForeign with
  | some _ => .error (.unencodable (w.directory ++ p).toText)
  | none =>
    if p.parts.any fun part => part.contains 0 then .error .nullInPath
    else .ok (Path.resolve w.directory p)

end Workspace
end KeyTrace
