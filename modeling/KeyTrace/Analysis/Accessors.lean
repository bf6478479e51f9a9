/-
Translation accessors: the variables declared from `useTranslations` or
`getTranslations`, and the map from their names to their namespaces.
-/
import KeyTrace.Analysis.Namespace

namespace KeyTrace

/-- A place in a file, in characters, with its line. -/
structure Location where
  start : Nat
  stop : Nat
  line : Nat
deriving DecidableEq, Repr

/-- A variable bound to a translation accessor. -/
structure Accessor where
  variableName : Text
  /-- The namespace that its lookups belong to. -/
  ns : Namespace
  location : Location
deriving DecidableEq, Repr

namespace Accessor

/-- The functions that make an accessor. -/
def makers : List Text := ["useTranslations", "getTranslations"].map text

/-- The name by which a call calls: that of a plain or member callee. -/
def calleeName? (source : Source) (call : Node) : Option Text :=
  match call.child? .function with
  | none => none
  | some f =>
    match f.shape with
    | .identifier => some (f.text source)
    | .member =>
      match f.child? .property with
      | some p => if p.kind = .propertyIdentifier then some (p.text source) else none
      | none => none
    | _ => none

/-- The call of a maker that an initializer consists of, awaited or not. -/
def call? (source : Source) (init : Option Node) : Option Node :=
  let awaited : Option Node := match init with
    | some n => if n.shape = .await then n.firstChild? else some n
    | none => none
  match awaited with
  | some n =>
    if n.shape = .call then
      match calleeName? source n with
      | some name => if makers.contains name then some n else none
      | none => none
    else none
  | none => none

/-- What an analysis of a program works with. -/
structure Workplace where
  program : Program
  scopes : ScopeTree
  importer : Option Importer
  /-- The name of the file in placeholders. -/
  label : Text

namespace Workplace

/-- The scopes of a program, made ready for an analysis. -/
def ofProgram (p : Program) (importer : Option Importer) (label : Text) : Traced Workplace := do
  let scopes ← Traced.ofCooked (ScopeTree.ofProgram p)
  return ⟨p, scopes, importer, label⟩

def source (w : Workplace) : Source := w.program.source

/-- Folding in a scope of the program. -/
def context (w : Workplace) (scope : ScopeId) : Fold.Context :=
  ⟨w.source, w.scopes.resolve scope, w.importer⟩

/-- The namespace of the accessor that a declarator makes by a call. -/
def namespaceAt (w : Workplace) (declarator : Place) (call : Node) : Traced Namespace :=
  Namespace.resolve (w.context (w.scopes.scopeFor declarator)) w.label
    (w.source.line declarator.node.span.start) call

/-- The places of a kind, parents first, in source order. -/
def placesOf (w : Workplace) (kind : Kind) : List Place :=
  (Place.root w.program.root).preorder.filter fun p => p.node.kind == kind

end Workplace

/-- The accessor that a declarator makes, if it makes one. -/
def ofDeclarator (w : Workplace) (d : Place) : Traced (Option Accessor) := do
  match d.node.child? .name with
  | none => return none
  | some n =>
    if n.kind ≠ .identifier then return none
    else match call? w.source (d.node.child? .value) with
      | none => return none
      | some call =>
        let ns ← w.namespaceAt d call
        let span := d.node.span
        return some {
          variableName := n.text w.source
          ns := ns
          location := ⟨w.source.charOffset span.start, w.source.charOffset span.stop,
            w.source.line span.start⟩ }

/-- The accessors of a program, in the order of their declarations. -/
def ofProgram (w : Workplace) : Traced (List Accessor) := do
  return (← (w.placesOf .variableDeclarator).mapM (ofDeclarator w)).filterMap id

/-- The accessors of a text; a text that is no program has none. -/
def discover (code label : Text) (importer : Option Importer) : Traced (List Accessor) := do
  match ← Program.ofText code with
  | none => return []
  | some p => ofProgram (← Workplace.ofProgram p importer label)

end Accessor

/-- The namespaces of variables, by name. -/
abbrev NamespaceMap := Named Text

namespace NamespaceMap

/-- The static namespaces, later accessors first in line; an empty one does not count. -/
def static (accessors : List Accessor) : NamespaceMap :=
  accessors.foldl (fun m a =>
    match a.ns with
    | .static (c :: cs) => Named.set a.variableName (c :: cs) m
    | _ => m) []

/-- The placeholders, later accessors first in line. -/
def placeholders (accessors : List Accessor) : NamespaceMap :=
  accessors.foldl (fun m a =>
    match a.ns with
    | .dynamic (c :: cs) => Named.set a.variableName (c :: cs) m
    | _ => m) []

/-- The map of a list of accessors. Placeholders, if wanted, go before namespaces. -/
def ofAccessors (accessors : List Accessor) (includePlaceholders : Bool) : NamespaceMap :=
  if includePlaceholders then (static accessors).setAll (placeholders accessors)
  else static accessors

end NamespaceMap
end KeyTrace
