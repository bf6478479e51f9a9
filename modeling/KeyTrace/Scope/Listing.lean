/-
The scopes of a program in the order of the source, and how each is called.
-/
import KeyTrace.Scope.Tree
import KeyTrace.Text.Quoted

namespace KeyTrace

/-- The name of a kind of node that opens a scope. -/
def Kind.scopeName : Kind → Text
  | .program => text "program"
  | .statementBlock => text "statement_block"
  | .forStatement => text "for_statement"
  | .forInStatement _ => text "for_in_statement"
  | .catchClause => text "catch_clause"
  | .switchBody => text "switch_body"
  | .functionDeclaration => text "function_declaration"
  | .generatorFunctionDeclaration => text "generator_function_declaration"
  | .functionExpression => text "function_expression"
  | .generatorFunction => text "generator_function"
  | .arrowFunction => text "arrow_function"
  | .methodDefinition => text "method_definition"
  | _ => text "other"

namespace ScopeTree

/-- The scopes in the order of the first node that lies in each. -/
def inOrder (t : ScopeTree) (root : Node) : List ScopeId :=
  ((Place.root root).preorder.map t.scopeFor).eraseDups

/-- What a scope itself binds, in the order of the names. -/
def sortedBindings (t : ScopeTree) (i : ScopeId) : Named Binding :=
  match t.scopes.get? i with
  | some s => s.bindings.mergeSort fun a b => Text.le a.1 b.1
  | none => []

/-- A scope in one line: its kind, its line and its names. -/
def describe (t : ScopeTree) (source : Source) (i : ScopeId) : Text :=
  match t.places[i]? with
  | some p =>
    text "Scope(" ++ p.node.kind.scopeName ++ [64] ++ decimal (source.line p.node.span.start)
      ++ text ", " ++ Quoted.encodeList ((t.sortedBindings i).map (·.1)) ++ text ")"
  | none => []

end ScopeTree
end KeyTrace
