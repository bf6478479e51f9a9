/-
The names that the import statements at the top of a program bind.

Later imports win, and imports of types alone bind nothing at runtime.
-/
import KeyTrace.Literal.Value

namespace KeyTrace

/-- What an imported name stands for. -/
structure Import where
  module : Text
  /-- The exported name, `default` for a default import; none for the whole module. -/
  name : Option Text
  /-- Where the import names it. -/
  specifier : Place

namespace Import

/-- The name of a default import. -/
def defaultName : Text := KeyTrace.text "default"

def isNamespace (i : Import) : Bool := i.name.isNone

/-- An import of one exported variable, by its name. -/
def isNamed (i : Import) : Bool :=
  match i.name with
  | some n => n != defaultName
  | none => false

/-- The import a specifier in braces stands for, under its local name. -/
def ofSpecifier? (source : Source) (module : Text) (p : Place) :
    Except Literal.InvalidEscape (Option (Text × Import)) :=
  if p.node.kind ≠ .importSpecifier false then return none
  else match p.node.child? .name with
    | none => return none
    | some n => do
      let original ← if n.kind = .string then Literal.stringValue source n
        else pure (n.text source)
      let localName := match p.node.child? .alias with
        | some a => a.text source
        | none => original
      return some (localName, ⟨module, some original, p⟩)

/-- The imports that one part of a clause stands for. -/
def ofClausePart (source : Source) (module : Text) (p : Place) :
    Except Literal.InvalidEscape (List (Text × Import)) :=
  match p.node.kind with
  | .identifier => return [(p.node.text source, ⟨module, some defaultName, p⟩)]
  | .namespaceImport =>
    return (p.children.filter (·.node.kind = .identifier)).map fun c =>
      (c.node.text source, ⟨module, none, c⟩)
  | .namedImports => do
    return (← p.children.mapM (ofSpecifier? source module)).filterMap id
  | _ => return []

/-- The imports of one statement. -/
def ofStatement (source : Source) (p : Place) :
    Except Literal.InvalidEscape (List (Text × Import)) :=
  if p.node.kind ≠ .importStatement false then return []
  else match p.node.child? .source with
    | none => return []
    | some s => do
      let module ← Literal.stringValue source s
      let clauses := p.children.filter (·.node.kind = .importClause)
      return (← (clauses.flatMap Place.children).mapM (ofClausePart source module)).flatten

/-- The imports of a program, in source order. -/
def ofProgram (p : Program) : Except Literal.InvalidEscape (List (Text × Import)) := do
  return (← (Place.root p.root).children.mapM (ofStatement p.source)).flatten

end Import
end KeyTrace
