/-
Running a command: the files of a scan are read and analyzed in order, and what
is found is printed at the end.

A file that is no text is passed over with a word about it; a failure ends the
scan with what has been printed so far.
-/
import KeyTrace.Command.Arguments
import KeyTrace.Command.Records
import KeyTrace.Editor.KeyPath
import KeyTrace.Files.Resolver
import KeyTrace.Settings

namespace KeyTrace.Command

/-- The version of the program. -/
def version : Text := text "0.3.0"

/-- How a command ends. -/
structure Ending where
  exitCode : Nat
  stdout : Text
  /-- The failure that ended it. -/
  failure : Option Failure

/-- Output that ends with a value, with an exit code, or with a failure. -/
structure Printing (α : Type) where
  stdout : Text
  result : Except (Nat × Option Failure) α

namespace Printing

variable {α β : Type}

protected def pure (a : α) : Printing α := ⟨[], .ok a⟩

protected def bind (x : Printing α) (f : α → Printing β) : Printing β :=
  match x.result with
  | .ok a => ⟨x.stdout ++ (f a).stdout, (f a).result⟩
  | .error e => ⟨x.stdout, .error e⟩

instance : Monad Printing where
  pure := Printing.pure
  bind := Printing.bind

/-- Ends with a failure. -/
def fail (f : Failure) : Printing α := ⟨[], .error (1, some f)⟩

def ofExcept : Except Failure α → Printing α
  | .ok a => .pure a
  | .error f => fail f

/-- Ends with an exit code. -/
def exit (code : Nat) : Printing α := ⟨[], .error (code, none)⟩

/-- Writes a text. One with a surrogate cannot be written. -/
def write (t : Text) : Printing Unit :=
  if t.any isSurrogate then fail (.unencodable t) else ⟨t, .ok ()⟩

/-- How a command ends. -/
def ending (x : Printing Unit) : Ending :=
  match x.result with
  | .ok () => ⟨0, x.stdout, none⟩
  | .error (code, failure) => ⟨code, x.stdout, failure⟩

end Printing

/-- What a command runs with. -/
structure Setting where
  workspace : Workspace
  environment : Named Text
  terminal : Terminal

/-- Prints a line with style tags. -/
def Setting.say (s : Setting) (markup : Text) : Printing Unit :=
  .write (s.terminal.printLine (Markup.shown (s.terminal.sanitize markup)))

/-- Prints a table. -/
def Setting.sayTable (s : Setting) (t : Table) : Printing Unit :=
  .write ((t.lines s.terminal.width).flatMap (· ++ [10]))

/-- The paths from the root, all of which have to lead somewhere. -/
def Setting.checkPaths (s : Setting) : List Path → Printing (List Path)
  | [] => return []
  | p :: ps => do
    if ← .ofExcept (s.workspace.holds p) then
      return Path.resolve s.workspace.directory p :: (← s.checkPaths ps)
    else do
      s.say (text "[bold red]✗ Error:[/bold red] Path does not exist: " ++ Markup.escape p.toText)
      .exit 1

/-- What is read in one file. -/
abbrev Reading (α : Type) := Path → Text → Traced (List α)

/-- What is found in the files of a list, in order. -/
def Setting.readFiles {α : Type} (s : Setting) (reading : Reading α) (root : Path) :
    List Path → Printing (List (InFile α))
  | [] => return []
  | p :: ps => do
    match s.workspace.readText? p with
    | none => do
      s.say (text "[yellow]Skipping unreadable file:[/yellow] " ++ Markup.escape p.toText)
      s.readFiles reading root ps
    | some code => do
      let found ← .ofExcept (reading p code).outcome
      let file := ((p.relativeTo? root).getD p).toText
      return found.map (InFile.mk · file) ++ (← s.readFiles reading root ps)

/-- What is found in the sources under some paths, in order. -/
def Setting.readSources {α : Type} (s : Setting) (rule : SourceRule) (reading : Reading α)
    (root : Path) : List Path → Printing (List (InFile α))
  | [] => return []
  | p :: ps => do
    let found ← s.readFiles reading root (← .ofExcept (rule.expand s.workspace p))
    return found ++ (← s.readSources rule reading root ps)

/-- How findings are printed. -/
structure Presentation (α : Type) where
  json : InFile α → Json
  /-- What is said if nothing is found. -/
  nothing : Text
  table : List (InFile α) → Table
  /-- What is said after the table, if anything. -/
  summary : Option (List (InFile α) → Text)

/-- Prints findings. -/
def Setting.present {α : Type} (s : Setting) (p : Presentation α) (asJson : Bool)
    (found : List (InFile α)) : Printing Unit := do
  if asJson then .write (Json.render (.indented 2) 0 (.array (found.map p.json)) ++ [10])
  else if found.isEmpty then
    s.say (text "[bold yellow]⚠ " ++ p.nothing ++ text "[/bold yellow]")
  else do
    s.sayTable (p.table found)
    match p.summary with
    | some f => s.say (text "\n[bold yellow]Summary:[/bold yellow] " ++ f found)
    | none => return ()

/-- Reads and prints. -/
def Setting.run {α : Type} (s : Setting) (scan : Scan) (settings : Settings) (root : Path)
    (paths : List Path) (reading : Reading α) (p : Presentation α) : Printing Unit := do
  let found ← s.readSources settings.sources reading root paths
  s.present p scan.asJson found

/-- The document that a file is, for the editor's questions. -/
def document (w : Workspace) (resolver : Resolver) (delimiter : Text) (p : Path) (code : Text) :
    Editor.Document where
  code := code
  file := p.toText
  importer := some (resolver.importer w p)
  delimiter := delimiter

/-- The answer to a question about a document in a language that is looked into. -/
def ifSupported {α : Type} (d : Editor.Document) (question : Editor.Document → Traced (List α)) :
    Traced (List α) :=
  if Language.supports none d.file then question d else return []

/-- The line of a character. -/
def lineOf (code : Text) (offset : Nat) : Nat := (code.take offset).count 10 + 1

/-- The keys of a document, each with its line. -/
def linedUsages (d : Editor.Document) : Traced (List LinedUsage) := do
  return (← ifSupported d Editor.Document.usages).map fun u => ⟨u, lineOf d.code u.start⟩

/-- Scans. -/
def Setting.scan (s : Setting) (scan : Scan) : Printing Unit := do
  let settings ← .ofExcept (Settings.load s.workspace s.environment Settings.usualEnvFile)
  let paths ← s.checkPaths scan.paths
  let root := Path.resolve s.workspace.directory (scan.root.getD settings.projectRoot)
  let resolver := Resolver.ofProject s.workspace root settings.aliases
  let usual := KeyPath.delimiterOr (some settings.delimiter)
  match scan.report with
  | .keys delimiter =>
    let delimiter := match delimiter with
      | some (c :: cs) => c :: cs
      | _ => usual
    s.run scan settings root paths
      (fun p code => linedUsages (document s.workspace resolver delimiter p code))
      { json := Records.usageJson
        nothing := text "No translation keys found."
        table := Records.usageTable s.terminal
        summary := some Records.usageSummary }
  | .namespaces =>
    s.run scan settings root paths
      (fun p code => Accessor.discover code p.name (some (resolver.importer s.workspace p)))
      { json := Records.accessorJson
        nothing := text "No translation accessors found."
        table := Records.accessorTable
        summary := some Records.accessorSummary }
  | .scopes =>
    s.run scan settings root paths
      (fun p code =>
        ifSupported (document s.workspace resolver usual p code) Editor.Document.ranges)
      { json := Records.rangeJson
        nothing := text "No namespace scopes found."
        table := Records.rangeTable
        summary := none }

/-- Carries out what a command line asks for. -/
def Setting.execute (s : Setting) : Request → Printing Unit
  | .version => .write (version ++ [10])
  | .scan scan => s.scan scan

/-- Runs a command line. One that is not well-formed ends with the exit code two. -/
def Setting.main (s : Setting) (args : List Text) : Ending :=
  match readRequest args with
  | some r => (s.execute r).ending
  | none => ⟨2, [], none⟩

end KeyTrace.Command
