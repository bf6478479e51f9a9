/-
Concrete syntax trees of ECMAScript programs.

A node has a kind, a span, the role it plays in its parent, and its children in
source order, comments among them. The kinds that the analysis tells apart have
a name each; every other construct is filed under what it is for.
-/
import KeyTrace.Syntax.Source

namespace KeyTrace

/-- The operators between two operands. -/
inductive BinaryOperator where
  | plus | minus | times | divide | remainder | power
  | shiftLeft | shiftRight | shiftRightUnsigned
  | bitAnd | bitOr | bitXor
  | logicalAnd | logicalOr | nullish
  | equal | notEqual | strictEqual | strictNotEqual
  | less | lessEqual | greater | greaterEqual | instanceOf | isIn
deriving DecidableEq, Repr

/-- The word that opens a declaration of variables. -/
inductive DeclarationWord where
  | var | lets | const
deriving DecidableEq, Repr

/-- What a child is to its parent. -/
inductive Role where
  | none
  | alias | arguments | body | constructor | declaration | function | index | key | left | name
  | object | parameter | parameters | pattern | property | returnType | right | source | typeSpec
  | value
deriving DecidableEq, Repr

/-- The construct a node stands for. -/
inductive Kind where
  | program | comment | htmlComment
  -- modules
  | importStatement (typeOnly : Bool) | importClause | namespaceImport | namedImports
  | importSpecifier (typeOnly : Bool) | exportStatement
  -- declarations
  | lexicalDeclaration | variableDeclaration | variableDeclarator | classDeclaration
  | functionDeclaration | generatorFunctionDeclaration | functionExpression | generatorFunction
  | arrowFunction | methodDefinition | formalParameters | requiredParameter | optionalParameter
  -- patterns
  | objectPattern | arrayPattern | restPattern | pairPattern | assignmentPattern
  | objectAssignmentPattern
  -- names
  | identifier | undefinedName | propertyIdentifier | privatePropertyIdentifier
  | shorthandPropertyIdentifier | shorthandPropertyIdentifierPattern | typeIdentifier
  | statementIdentifier
  -- statements that open a scope
  | statementBlock | forStatement | forInStatement (declares : Option DeclarationWord)
  | catchClause | switchBody
  -- literals
  | string | escapeSequence | stringFragment | templateString | templateSubstitution
  | array | object | pair | spreadElement
  -- assertions and parentheses
  | asExpression | satisfiesExpression | nonNullExpression | typeAssertion
  | parenthesizedExpression
  -- other expressions that are looked into
  | binaryExpression (operator : BinaryOperator) | callExpression | awaitExpression
  | memberExpression | subscriptExpression | arguments
  -- the rest
  | otherStatement | labeledStatement | otherDeclaration | otherExpression | sequenceExpression
  | otherLiteral | clause | classBody | typeSyntax | typeArguments | jsxSyntax
deriving DecidableEq, Repr

/-- A node of a syntax tree. -/
inductive Node where
  | mk (role : Role) (kind : Kind) (span : Span) (children : List Node)
deriving Repr

namespace Node

def role : Node → Role
  | mk r _ _ _ => r

def kind : Node → Kind
  | mk _ k _ _ => k

def span : Node → Span
  | mk _ _ s _ => s

/-- All children, comments included. -/
def allChildren : Node → List Node
  | mk _ _ _ cs => cs

/-- The node in another role. -/
def withRole (r : Role) : Node → Node
  | mk _ k s cs => mk r k s cs

def isComment (n : Node) : Bool := n.kind == .comment

/-- The children that are not comments. -/
def children (n : Node) : List Node := n.allChildren.filter fun c => !c.isComment

/-- The first child in a role. -/
def child? (n : Node) (r : Role) : Option Node := n.allChildren.find? fun c => c.role == r

/-- The text a node spans. -/
def text (n : Node) (source : Source) : Text := source.slice n.span

mutual

/-- The node and everything below it, parents first, in source order. -/
def preorder : Node → List Node
  | mk r k s cs => mk r k s cs :: preorderAll cs

/-- The trees of a list, one after the other. -/
def preorderAll : List Node → List Node
  | [] => []
  | c :: cs => preorder c ++ preorderAll cs

end

mutual

/-- Rewrites every span. -/
def mapSpan (f : Span → Span) : Node → Node
  | mk r k s cs => mk r k (f s) (mapSpanAll f cs)

def mapSpanAll (f : Span → Span) : List Node → List Node
  | [] => []
  | c :: cs => mapSpan f c :: mapSpanAll f cs

end

end Node

/-- A program: its bytes and the tree over them. -/
structure Program where
  source : Source
  root : Node

/-- What tells nodes of a tree apart: where they are and what they are. -/
structure Node.Key where
  span : Span
  kind : Kind
deriving DecidableEq, Repr

def Node.key (n : Node) : Node.Key := ⟨n.span, n.kind⟩

/-- A place in a tree: a node and the nodes above it, the nearest first. -/
structure Place where
  node : Node
  above : List Node

namespace Place

/-- The top of a tree. -/
def root (n : Node) : Place := ⟨n, []⟩

/-- The place of a child. -/
def down (p : Place) (c : Node) : Place := ⟨c, p.node :: p.above⟩

/-- The place of the parent. -/
def up? (p : Place) : Option Place :=
  match p.above with
  | [] => none
  | n :: ns => some ⟨n, ns⟩

/-- The node and its ancestors, the node itself first. -/
def chain (p : Place) : List Node := p.node :: p.above

/-- The place of the first child in a role. -/
def child? (p : Place) (r : Role) : Option Place := (p.node.child? r).map p.down

/-- The places of the children that are not comments. -/
def children (p : Place) : List Place := p.node.children.map p.down

mutual

/-- Every place at or below a node, parents first, in source order. -/
def preorderOf (above : List Node) : Node → List Place
  | .mk r k s cs => ⟨.mk r k s cs, above⟩ :: preorderOfAll (.mk r k s cs :: above) cs

def preorderOfAll (above : List Node) : List Node → List Place
  | [] => []
  | c :: cs => preorderOf above c ++ preorderOfAll above cs

end

/-- Every place of a tree, parents first, in source order. -/
def preorder (p : Place) : List Place := preorderOf p.above p.node

end Place
end KeyTrace
