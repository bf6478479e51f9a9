/-
Folding constant expressions to strings, lists of strings and lists of flat
records of strings, without running the program.

The depth counts the steps from an expression into its parts and into the values
of names; past `maxDepth` everything is dynamic. What remains of the depth is a
budget, on which the recursion goes down: `Folder` is what can be folded with a
budget, and `Folder.next` makes it from what can be folded with one less.
-/
import KeyTrace.Analysis.Exports
import KeyTrace.Analysis.Reading
import KeyTrace.Fold.Value
import KeyTrace.Scope.Tree

namespace KeyTrace

/-- What names mean where an expression stands. -/
abbrev Lookup := Text → Option Binding

/-- No name means anything. -/
def Lookup.nothing : Lookup := fun _ => none

namespace Fold

/-- The depth past which nothing is folded. -/
def maxDepth : Int := 5

/-- How many steps may still be taken at a depth. -/
def budget (depth : Int) : Nat := (maxDepth + 1 - depth).toNat

/-- Where an expression is folded. -/
structure Context where
  source : Source
  lookup : Lookup
  /-- Finds the modules that names are imported from. -/
  importer : Option Importer

/-- In a module on its own: no name is followed any further. -/
def Context.alone (source : Source) : Context := ⟨source, .nothing, none⟩

/-- What can be folded with some budget. -/
structure Folder where
  /-- Any expression. -/
  constant : Option Node → Traced Folded
  /-- A name, which is followed without a look at the budget. -/
  name : Node → Traced Folded

/-- Folds the elements of an array one by one, up to the first that does not go with those before
it. -/
def foldElements (element : Node → Traced Element) : Gathered → List Node → Traced Folded
  | g, [] => return g.value
  | g, e :: es => do
    match g.add (← element e) with
    | some g' => foldElements element g' es
    | none => return .dynamic

/-- Follows the text of a template with its substitutions, of which each has to be a string. -/
def joinTemplate (constant : Option Node → Traced Folded) (soFar : Text) :
    List (Option Node × Text) → Traced (Option Text)
  | [] => return some soFar
  | (expression, quasi) :: rest => do
    match ← constant expression with
    | .string s => joinTemplate constant (soFar ++ s ++ quasi) rest
    | _ => return none

/-- Folds a template literal. -/
def foldTemplate (source : Source) (constant : Option Node → Traced Folded) (n : Node) :
    Traced (Option Text) := do
  let t ← Traced.ofCooked (Literal.Template.ofNode source n)
  joinTemplate constant t.first t.rest

/-- A string or nothing known. -/
def ofString? : Option Text → Folded
  | some s => .string s
  | none => .dynamic

/-- Adds one property of an object literal to a record: a pair with a plain name, or a shorthand,
whose value is a string. -/
def foldProperty (source : Source) (f : Folder) (r : Record) (property : Node) :
    Traced Record := do
  let keep (key : Node) : Folded → Record
    | .string s => Named.set (key.text source) s r
    | _ => r
  match property.kind with
  | .shorthandPropertyIdentifier => return keep property (← f.name property)
  | .pair =>
    match property.child? .key with
    | some key =>
      if key.kind = .propertyIdentifier then
        return keep key (← f.constant (property.child? .value))
      else return r
    | none => return r
  | _ => return r

/-- The string properties of an object literal. -/
def foldRecord (source : Source) (f : Folder) (object : Node) : Traced Record :=
  object.children.foldlM (foldProperty source f) []

/-- One element of an array literal. -/
def foldElement (source : Source) (f : Folder) (element : Node) : Traced Element := do
  match ← f.constant (some element) with
  | .string s => return .string s
  | _ =>
    match element.unwrap? with
    | some e =>
      if e.shape = .object then return .record (← foldRecord source f e) else return .neither
    | none => return .neither

/-- Folds an imported variable: its value in its own module, where no name is followed. -/
def foldImport (constantIn : Context → Option Node → Traced Folded) (importer : Option Importer)
    (i : Import) : Traced Folded := do
  match importer, i.name with
  | some importer, some name =>
    if !i.isNamed then return .dynamic
    else match ← importer.request i.module with
      | none | some [] => return .dynamic
      | some code =>
        match ← Program.ofText code with
        | none =>
          Traced.tell (.unparsable i.module name)
          return .dynamic
        | some p =>
          match p.exported? name with
          | none =>
            Traced.tell (.notExported i.module name)
            return .dynamic
          | some d => constantIn (.alone p.source) (d.child? .value)
  | _, _ => return .dynamic

/-- Folds a name by what it refers to. -/
def foldName (constantIn : Context → Option Node → Traced Folded) (ctx : Context) (n : Node) :
    Traced Folded :=
  match ctx.lookup (n.text ctx.source) with
  | some (.imported i) => foldImport constantIn ctx.importer i
  | some (.declared d) => constantIn ctx (d.node.child? .value)
  | _ => return .dynamic

/-- Folds an expression that is not wrapped; its parts have one step less. -/
def foldShape (ctx : Context) (below : Context → Folder) (n : Node) : Traced Folded :=
  let f := below ctx
  match n.shape with
  | .string => do return .string (← Traced.ofCooked (Literal.stringValue ctx.source n))
  | .array => foldElements (foldElement ctx.source f) .nothing n.children
  | .identifier => foldName (fun c => (below c).constant) ctx n
  | .template => do return ofString? (← foldTemplate ctx.source f.constant n)
  | .binary =>
    if n.kind = .binaryExpression .plus then do
      match ← f.constant (n.child? .left) with
      | .string l =>
        match ← f.constant (n.child? .right) with
        | .string r => return .string (l ++ r)
        | _ => return .dynamic
      | _ => return .dynamic
    else return .dynamic
  | _ => return .dynamic

/-- What can be folded when nothing may be stepped into. -/
def Folder.last (ctx : Context) : Folder where
  constant := fun _ => return .dynamic
  name := foldName (fun _ _ => return .dynamic) ctx

/-- What can be folded with one step more. -/
def Folder.next (below : Context → Folder) (ctx : Context) : Folder where
  constant := fun n =>
    match unwrapOf n with
    | none => return .dynamic
    | some n => foldShape ctx below n
  name := foldName (fun c => (below c).constant) ctx

/-- What can be folded with a budget. -/
def folder : (budget : Nat) → Context → Folder
  | 0 => Folder.last
  | b + 1 => Folder.next (folder b)

/-- Folds an expression at a depth. -/
def constant (ctx : Context) (depth : Int) (n : Option Node) : Traced Folded :=
  (folder (budget depth) ctx).constant n

end Fold
end KeyTrace
