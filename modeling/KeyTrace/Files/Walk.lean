/-
The source files under a directory, in the order of their paths.
-/
import KeyTrace.Files.Tree

namespace KeyTrace

/-- Which files count as sources, and which names are passed over. -/
structure SourceRule where
  extensions : List Text
  excluded : List Text

namespace SourceRule

/-- No part of a path is passed over. -/
def admits (r : SourceRule) (parts : List Text) : Bool := parts.all fun p => !r.excluded.contains p

/-- What leads from a directory to a place below it. -/
def below? (directory place : FilePlace) : Option (List Text) :=
  if place.length > directory.length ∧ place.take directory.length = directory then
    some (place.drop directory.length)
  else none

/-- The entries under a directory whose name ends in an extension, by the parts that lead to them.
Whether they are files is not asked. -/
def glob (t : FileTree) (directory : FilePlace) (extension : Text) : List (List Text) :=
  (t.entries.filterMap fun e => below? directory e.1).filter fun parts =>
    Text.endsWith (parts.getLastD []) extension

/-- What is found under a directory, extension after extension, and put in order. -/
def under (r : SourceRule) (t : FileTree) (directory : FilePlace) : List (List Text) :=
  ((Text.inOrder r.extensions).flatMap fun extension =>
    (glob t directory extension).filter r.admits).mergeSort Path.partsLE

/-- The sources that a path stands for: the file itself, whatever its name, or what is found under
the directory. -/
def expand (r : SourceRule) (w : Workspace) (p : Path) : Except Failure (List Path) := do
  match ← w.locate p with
  | some (_, .file _) => return [p]
  | some (place, .directory) => return (r.under w.tree place).map fun parts => p ++ ⟨.here, parts⟩
  | none => return []

end SourceRule
end KeyTrace
