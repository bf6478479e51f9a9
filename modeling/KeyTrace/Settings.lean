/-
The settings of a scan, as the environment gives them.
-/
import KeyTrace.Files.Walk
import KeyTrace.Settings.EnvFile

namespace KeyTrace

/-- The settings of a scan. -/
structure Settings where
  /-- What joins a namespace and a key. -/
  delimiter : Text
  /-- The directory that `@/` stands for. -/
  projectRoot : Path
  /-- Names of directories to pass over, besides the usual ones. -/
  extraExcluded : List Text
  aliases : Named Text
deriving DecidableEq, Repr

namespace Settings

/-- The names that are always passed over. -/
def usuallyExcluded : List Text :=
  ["node_modules", ".git", ".next", ".turbo", ".vercel", "dist", "build", "out", "coverage",
   ".cache", "__pycache__"].map text

/-- The extensions of sources. -/
def sourceExtensions : List Text :=
  [".js", ".jsx", ".mjs", ".cjs", ".ts", ".tsx", ".mts", ".cts"].map text

/-- The pieces of a list with commas, without white space around them. -/
def commaSeparated (t : Text) : List Text := (Text.splitOn [cp ','] t).map Text.strip

/-- The names to pass over in a list. -/
def excludedOf (t : Text) : List Text :=
  ((commaSeparated t).filter fun n => !n.isEmpty && !usuallyExcluded.contains n).eraseDups

/-- The alias that an entry `alias=directory` sets. -/
def aliasOf? (entry : Text) : Option (Text × Text) :=
  match Text.cut (cp '=') entry with
  | (_, none) => none
  | (short, some target) =>
    let short := short.strip
    let target := target.strip
    if short.isEmpty || target.isEmpty then none else some (short, target)

/-- The aliases in a list; the later of two entries for one alias counts, in the place of the
earlier. -/
def aliasesOf (t : Text) : Named Text :=
  Named.setAll [] ((Text.splitOn [cp ','] t).filterMap aliasOf?)

/-- The value of a variable, or a text in its place. -/
def valueOr (environment : Named Text) (name : String) (other : Text) : Text :=
  (Named.get? environment (text name)).getD other

/-- The settings of an environment. -/
def ofEnvironment (environment : Named Text) : Settings where
  delimiter := valueOr environment "INTLSCAN_DELIMITER" [cp '.']
  projectRoot := Path.ofText (valueOr environment "INTLSCAN_PROJECT_ROOT" [cp '.'])
  extraExcluded := excludedOf (valueOr environment "INTLSCAN_EXCLUDED_DIRS" [])
  aliases := aliasesOf (valueOr environment "INTLSCAN_ALIASES" [])

/-- Which files count as sources. -/
def sources (s : Settings) : SourceRule where
  extensions := sourceExtensions
  excluded := usuallyExcluded ++ s.extraExcluded

/-- The file of settings in the working directory. -/
def usualEnvFile : Path := Path.ofText (text ".env")

/-- The settings of an environment and a file, which may be missing. -/
def load (w : Workspace) (environment : Named Text) (envFile : Path) : Except Failure Settings := do
  match ← w.locate envFile with
  | some (_, .file bytes) =>
    match Workspace.textOf? bytes with
    | some t => return ofEnvironment (EnvFile.load environment t)
    | none => throw (.undecodable bytes)
  | _ => return ofEnvironment environment

end Settings
end KeyTrace
