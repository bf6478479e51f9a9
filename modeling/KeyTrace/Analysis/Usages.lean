/-
Usages: the keys looked up through translation accessors.

A lookup is a call `t(…)` or `t.rich(…)`. Its key is the string its argument
folds to; an item of a list that is mapped over stands for every element.
-/
import KeyTrace.Analysis.Accessors

namespace KeyTrace

/-- A key looked up at a call, qualified by its namespace. -/
structure Usage where
  key : Text
  start : Nat
  stop : Nat
  /-- The key is written as a literal. -/
  quoted : Bool
  variableName : Text
  /-- The namespace, if the variable has one. -/
  ns : Option Text
deriving DecidableEq, Repr

/-- Namespaces for variables that have none of their own; a variable may be listed with no
namespace at all. -/
abbrev Fallback := Named (Option Text)

namespace Usage

open Accessor (Workplace)

/-- The methods of an accessor that look keys up. -/
def lookupMethods : List Text := ["rich", "markup", "raw"].map text

/-- What joins a namespace and a key unless something else is said. -/
def defaultDelimiter : Text := [46]

/-- The variable that a call looks a key up through. -/
def lookupVariable? (source : Source) (call : Node) : Option Text :=
  match call.child? .function with
  | none => none
  | some f =>
    match f.shape with
    | .identifier => some (f.text source)
    | .member =>
      match f.child? .object, f.child? .property with
      | some o, some p =>
        if o.shape = .identifier ∧ p.kind = .propertyIdentifier
            ∧ lookupMethods.contains (p.text source) then
          some (o.text source)
        else none
      | _, _ => none
    | _ => none

/-- The namespace that the declaration of a variable gives it. -/
def ownNamespace (w : Workplace) (scope : ScopeId) (variableName : Text) :
    Traced (Option Text) := do
  match w.scopes.resolve scope variableName with
  | some (.declared d) =>
    match Accessor.call? w.source (d.node.child? .value) with
    | some call => return (← w.namespaceAt d call).static?
    | none => return none
  | _ => return none

/-- The namespace of a variable: its own, or else the fallback's. -/
def namespaceOf (w : Workplace) (fallback : Fallback) (scope : ScopeId) (variableName : Text) :
    Traced (Option Text) := do
  match ← ownNamespace w scope variableName with
  | some ns => return some ns
  | none => return (Named.get? fallback variableName).bind id

/-- The call `xs.map(f)` whose only argument is the function of a parameter, and `xs`. -/
def mapCall? (source : Source) (function : Place) : Option (Place × Node) :=
  match function.up? with
  | none => none
  | some args =>
    if args.node.kind ≠ .arguments ∨ args.node.children.length ≠ 1 then none
    else match args.up? with
      | none => none
      | some call =>
        if call.node.shape ≠ .call then none
        else match call.node.child? .function with
          | none => none
          | some callee =>
            if callee.shape ≠ .member then none
            else match callee.child? .property, callee.child? .object with
              | some p, some o =>
                if p.text source = text "map" ∧ o.shape = .identifier then some (call, o) else none
              | _, _ => none

/-- The list that a name runs over, if the name is the item of a mapping: the first parameter,
and no pattern. -/
def mappedList (w : Workplace) (binding : Option Binding) : Traced Folded := do
  match binding with
  | some (.parameter _ function 0 true) =>
    match mapCall? w.source function with
    | some (call, list) =>
      Fold.constant (w.context (w.scopes.scopeFor call)) 0 (some list)
    | none => return .dynamic
  | _ => return .dynamic

/-- The keys that an argument stands for, without their namespace. -/
def localKeys (w : Workplace) (scope : ScopeId) (argument : Node) : Traced (List Text) := do
  match ← Fold.constant (w.context scope) 0 (some argument) with
  | .string s => return [s]
  | _ =>
    match argument.unwrap? with
    | none => return []
    | some a =>
      match a.shape with
      | .identifier =>
        let list ← mappedList w (w.scopes.resolve scope (a.text w.source))
        return list.strings?.getD []
      | .member =>
        match a.child? .object, a.child? .property with
        | some o, some p =>
          if o.shape = .identifier ∧ p.kind = .propertyIdentifier then
            let list ← mappedList w (w.scopes.resolve scope (o.text w.source))
            let name := p.text w.source
            return (list.records?.getD []).filterMap fun r =>
              (Named.get? r name).filter fun v => !v.isEmpty
          else return []
        | _, _ => return []
      | _ => return []

/-- A key in its namespace. -/
def qualify (delimiter : Text) (ns : Option Text) (key : Text) : Text :=
  match ns with
  | some (c :: cs) => (c :: cs) ++ delimiter ++ key
  | _ => key

/-- The keys looked up by one call. -/
def ofCall (w : Workplace) (fallback : Fallback) (delimiter : Text) (call : Place) :
    Traced (List Usage) := do
  match lookupVariable? w.source call.node with
  | none => return []
  | some variableName =>
    let scope := w.scopes.scopeFor call
    let ns ← namespaceOf w fallback scope variableName
    if ns.isNone && (Named.get? fallback variableName).isNone then return []
    else match call.node.callArguments?.getD [] with
      | [] => return []
      | first :: _ =>
        let keys ← localKeys w scope first
        return keys.map fun key => {
          key := qualify delimiter ns key
          start := w.source.charOffset first.span.start
          stop := w.source.charOffset first.span.stop
          quoted := first.shape == .string || first.shape == .template
          variableName := variableName
          ns := ns }

/-- The keys looked up in a program, in the order of the calls. -/
def ofProgram (w : Workplace) (fallback : Fallback) (delimiter : Text) : Traced (List Usage) := do
  return (← (w.placesOf .callExpression).mapM (ofCall w fallback delimiter)).flatten

/-- The keys looked up in a text; a text that is no program looks up none. -/
def discover (code : Text) (fallback : Fallback) (importer : Option Importer)
    (delimiter label : Text) : Traced (List Usage) := do
  match ← Program.ofText code with
  | none => return []
  | some p => ofProgram (← Workplace.ofProgram p importer label) fallback delimiter

end Usage
end KeyTrace
