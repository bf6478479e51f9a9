/-
The files that import strings name.

An import string is relative to the file that it stands in, or begins with `@/`
or a configured alias; any other names a package and is not looked for. What it
comes to is a list of candidates, and the first of them that is a file answers.
-/
import KeyTrace.Files.Tree
import KeyTrace.Text.Named

namespace KeyTrace

/-- The imports of one project. -/
structure Resolver where
  /-- The directory that `@/` stands for. -/
  root : Path
  /-- Further beginnings of import strings, and directories under the root. -/
  aliases : Named Text

namespace Resolver

/-- What is added to a path to find the file of a module, in this order, after nothing. -/
def moduleSuffixes : List Text :=
  [".ts", ".tsx", ".js", ".jsx", "/index.ts", "/index.tsx", "/index.js", "/index.jsx"].map text

/-- A pattern without its `/*`. -/
def withoutStar (pattern : Text) : Text := Text.replaceAll (text "/*") [] pattern

/-- The resolver of a project; of two aliases that come to the same, the later one's directory
counts. -/
def ofProject (w : Workspace) (root : Path) (aliases : Named Text) : Resolver where
  root := Path.resolve w.directory root
  aliases := Named.setAll [] (aliases.map fun a => (withoutStar a.1, withoutStar a.2))

/-- The paths that may be the file of a module. -/
def candidatesAt (base : Path) : List Path :=
  base :: moduleSuffixes.map fun s => Path.ofText (base.toText ++ s)

/-- An import string is an alias or goes on from it after a slash. -/
def isUnder (short wanted : Text) : Bool :=
  wanted == short || Text.startsWith wanted (short ++ [Path.slash])

/-- The paths that an import string stands for, before any suffix. -/
def bases (r : Resolver) (w : Workspace) (file : Path) (wanted : Text) :
    Except Failure (List Path) :=
  if wanted = [] then .ok []
  else if wanted.head? = some Path.dot then do
    return [← w.resolve (file.parent ++ Path.ofText wanted)]
  else match Text.after? (text "@/") wanted with
    | some rest =>
      .ok [r.root ++ Path.ofText rest, r.root ++ Path.ofText (text "src") ++ Path.ofText rest]
    | none =>
      match r.aliases.find? fun a => isUnder a.1 wanted with
      | some (short, target) =>
        let rest := (wanted.drop short.length).dropWhile (· == Path.slash)
        .ok [r.root ++ Path.ofText target ++ Path.ofText rest]
      | none => .ok []

/-- The paths that are tried for an import string, in order. -/
def candidates (r : Resolver) (w : Workspace) (file : Path) (wanted : Text) :
    Except Failure (List Path) :=
  (r.bases w file wanted).map (·.flatMap candidatesAt)

/-- The first of some paths that leads to a file. -/
def firstFile (w : Workspace) : List Path → Except Failure (Option Path)
  | [] => .ok none
  | p :: ps => do if ← w.isFile p then return some p else firstFile w ps

/-- The file that an import string names. -/
def resolve (r : Resolver) (w : Workspace) (file : Path) (wanted : Text) :
    Except Failure (Option Path) := do
  firstFile w (← r.candidates w file wanted)

/-- The text of the module that an import string names. -/
def readModule (r : Resolver) (w : Workspace) (file : Path) (wanted : Text) : Importer.Answer :=
  match r.resolve w file wanted with
  | .error e => ⟨[], .error e⟩
  | .ok none => ⟨[.unresolved wanted file.toText], .ok none⟩
  | .ok (some p) =>
    match w.readText? p with
    | some t => ⟨[], .ok (some t)⟩
    | none => ⟨[.unreadable p.toText], .ok none⟩

/-- The importer of a file. -/
def importer (r : Resolver) (w : Workspace) (file : Path) : Importer := r.readModule w file

end Resolver
end KeyTrace
