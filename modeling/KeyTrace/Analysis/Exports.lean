/-
The variables that a module exports where it declares them.
-/
import KeyTrace.Syntax.Node

namespace KeyTrace.Program

/-- The declarators of an `export const`, `export let` or `export var`. -/
def exportedDeclarators (statement : Node) : List Node :=
  if statement.kind ≠ .exportStatement then []
  else match statement.child? .declaration with
    | some d =>
      if d.kind = .lexicalDeclaration ∨ d.kind = .variableDeclaration then
        d.children.filter (·.kind = .variableDeclarator)
      else []
    | none => []

/-- The first declarator at the top of a module that exports a variable of that name. -/
def exported? (p : Program) (name : Text) : Option Node :=
  (p.root.children.flatMap exportedDeclarators).find? fun d =>
    match d.child? .name with
    | some n => n.kind == .identifier && n.text p.source == name
    | none => false

end KeyTrace.Program
