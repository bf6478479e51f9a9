/-
What a scan finds, as JSON and as tables.
-/
import KeyTrace.Analysis.Usages
import KeyTrace.Editor.Document
import KeyTrace.Output.Json
import KeyTrace.Output.Markup
import KeyTrace.Output.Table
import KeyTrace.Output.Terminal

namespace KeyTrace.Command

/-- A finding in a file. -/
structure InFile (α : Type) where
  found : α
  /-- The path of the file as it is shown. -/
  file : Text

/-- A key and the line that it is on. -/
structure LinedUsage where
  usage : Usage
  line : Nat

/-- The text that a cell with style tags shows. -/
def cell (markup : Text) : Text := Terminal.withoutControls (Markup.shown markup)

/-- A cell of plain text. -/
def plainCell (t : Text) : Text := cell (Markup.escape t)

namespace Records

def usageJson (r : InFile LinedUsage) : Json :=
  let u := r.found.usage
  Json.fields [("key", .string u.key), ("start", Json.ofNat u.start), ("end", Json.ofNat u.stop),
    ("quoted", .bool u.quoted), ("variable_name", .string u.variableName),
    ("namespace", Json.ofOption Json.string u.ns), ("file", .string r.file),
    ("line", Json.ofNat r.found.line)]

def namespaceFields : Namespace → List (String × Json)
  | .static n => [("namespace", .string n), ("is_dynamic", .bool false),
      ("dynamic_placeholder", .null)]
  | .dynamic p => [("namespace", .null), ("is_dynamic", .bool true),
      ("dynamic_placeholder", .string p)]

def locationJson (l : Location) : Json :=
  Json.fields [("start", Json.ofNat l.start), ("end", Json.ofNat l.stop), ("line", Json.ofNat l.line)]

def accessorJson (r : InFile Accessor) : Json :=
  Json.fields ([("variable_name", .string r.found.variableName)] ++ namespaceFields r.found.ns
    ++ [("location", locationJson r.found.location), ("file", .string r.file)])

def rangeJson (r : InFile Editor.ScopeRange) : Json :=
  Json.fields [("start", Json.ofNat r.found.start), ("end", Json.ofNat r.found.stop),
    ("namespace", .string r.found.ns), ("file", .string r.file)]

/-- A column of plain text. -/
def leftColumn (title : String) : Table.Column := ⟨text title, .left⟩

/-- A column of numbers. -/
def rightColumn (title : String) : Table.Column := ⟨text title, .right⟩

/-- The sign of a key that is written as a literal, and of one that is not. -/
def quotedSign (quoted : Bool) : Text := text (if quoted then "✓" else "✗")

def usageTable (terminal : Terminal) (rs : List (InFile LinedUsage)) : Table where
  title := text "Translation Keys"
  columns := [leftColumn "File", rightColumn "Line", leftColumn "Key", leftColumn "Via",
    leftColumn "Literal"]
  rows := rs.map fun r =>
    [plainCell r.file, decimal r.found.line, plainCell r.found.usage.key,
      plainCell r.found.usage.variableName,
      cell (terminal.sanitize (quotedSign r.found.usage.quoted))]

/-- A namespace in a table; a placeholder is coloured. -/
def namespaceCell : Namespace → Text
  | .static n => plainCell n
  | .dynamic p => cell (text "[yellow]" ++ Markup.escape p ++ text "[/yellow]")

def accessorTable (rs : List (InFile Accessor)) : Table where
  title := text "Translation Namespaces"
  columns := [leftColumn "File", rightColumn "Line", leftColumn "Variable", leftColumn "Namespace"]
  rows := rs.map fun r =>
    [plainCell r.file, decimal r.found.location.line, plainCell r.found.variableName,
      namespaceCell r.found.ns]

def rangeTable (rs : List (InFile Editor.ScopeRange)) : Table where
  title := text "Namespace Scopes"
  columns := [leftColumn "File", rightColumn "Range", leftColumn "Namespace"]
  rows := rs.map fun r =>
    [plainCell r.file, decimal r.found.start ++ [45] ++ decimal r.found.stop,
      plainCell r.found.ns]

/-- The number of different keys. -/
def distinctKeys (rs : List (InFile LinedUsage)) : Nat :=
  (rs.map fun r => r.found.usage.key).eraseDups.length

/-- The number of accessors without a known namespace. -/
def unresolved (rs : List (InFile Accessor)) : Nat :=
  (rs.filter fun r => r.found.ns.static?.isNone).length

def usageSummary (rs : List (InFile LinedUsage)) : Text :=
  decimal rs.length ++ text " usages, " ++ decimal (distinctKeys rs) ++ text " distinct keys"

def accessorSummary (rs : List (InFile Accessor)) : Text :=
  decimal rs.length ++ text " bindings, " ++ decimal (unresolved rs) ++ text " unresolved"

end Records
end KeyTrace.Command
