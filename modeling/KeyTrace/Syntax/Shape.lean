/-
The shapes of expression that the analysis tells apart, and what lies under
parentheses and type assertions.
-/
import KeyTrace.Syntax.Node

namespace KeyTrace

/-- The shape of an expression. -/
inductive Shape where
  | wrapper | string | template | array | object | identifier | binary | call | await | member
  | other
deriving DecidableEq, Repr

/-- The shape of a kind of node. -/
def Kind.shape : Kind → Shape
  | .asExpression | .satisfiesExpression | .nonNullExpression | .typeAssertion
  | .parenthesizedExpression => .wrapper
  | .string => .string
  | .templateString => .template
  | .array => .array
  | .object => .object
  | .identifier => .identifier
  | .binaryExpression _ => .binary
  | .callExpression => .call
  | .awaitExpression => .await
  | .memberExpression => .member
  | _ => .other

namespace Node

def shape (n : Node) : Shape := n.kind.shape

/-- The first child that is not a comment. -/
def firstChild? (n : Node) : Option Node := n.children.head?

/-- The expression under one wrapper. An angle-bracket assertion has it last, every other
wrapper first. -/
def wrapped? (n : Node) : Option Node :=
  if n.kind = .typeAssertion then n.children.getLast? else n.children.head?

mutual

/-- The expression under all wrappers, if there is one: `x as T`, `<T>x`, `x!`, `x satisfies T`
and `(x)` all evaluate to `x`. -/
def unwrap? : Node → Option Node
  | .mk r k s cs =>
    if k.shape = .wrapper then
      if k = .typeAssertion then unwrapLast? cs none else unwrapFirst? cs
    else some (.mk r k s cs)

/-- What the first child under a wrapper comes to. -/
def unwrapFirst? : List Node → Option Node
  | [] => none
  | c :: cs => if c.isComment then unwrapFirst? cs else unwrap? c

/-- What the last child under a wrapper comes to, or `found` if there is none. -/
def unwrapLast? : List Node → Option Node → Option Node
  | [], found => found
  | c :: cs, found => unwrapLast? cs (if c.isComment then found else unwrap? c)

end

/-- The arguments of a call; a tagged template has none to speak of. -/
def callArguments? (call : Node) : Option (List Node) :=
  match call.child? .arguments with
  | some a => if a.kind = .arguments then some a.children else none
  | none => none

end Node

/-- The shape of an optional expression. -/
def shapeOf (n : Option Node) : Shape := (n.map Node.shape).getD .other

/-- The expression under all wrappers of an optional expression. -/
def unwrapOf (n : Option Node) : Option Node := n.bind Node.unwrap?

end KeyTrace
