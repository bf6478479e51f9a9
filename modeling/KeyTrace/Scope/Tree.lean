/-
The scopes of a program.

`let`, `const` and classes are bound in the block around them, `var` in the
function around it, parameters in their function, imports in the program. A name
means the same throughout its scope, before its declaration too. The body of a
function shares the function's scope.
-/
import KeyTrace.Analysis.Imports
import KeyTrace.Scope.Chain
import KeyTrace.Scope.Pattern

namespace KeyTrace

/-- What sort of thing a name refers to. -/
inductive BindingKind where
  /-- A name that an import binds. -/
  | module
  /-- A variable declared by its name alone. -/
  | local
  /-- A parameter of a function. -/
  | param
  /-- Any other name: of a function, a class, a caught value, a part of a pattern. -/
  | other
deriving DecidableEq, Repr

namespace BindingKind

def name : BindingKind → Text
  | .module => text "module"
  | .local => text "local"
  | .param => text "param"
  | .other => text "other"

def ofName? (n : Text) : Option BindingKind :=
  [module, BindingKind.local, param, other].find? fun k => k.name == n

end BindingKind

/-- What a name refers to. -/
inductive Binding where
  | imported (i : Import)
  /-- A variable declared by its name alone. -/
  | declared (declarator : Place)
  /-- The name as it stands in the parameter at a position of a function; `simple` if the
  parameter is that name and no pattern. -/
  | parameter (name function : Place) (position : Nat) (simple : Bool)
  | other (declaration : Place)

namespace Binding

def kind : Binding → BindingKind
  | imported _ => .module
  | declared _ => .local
  | parameter .. => .param
  | other _ => .other

/-- Where the name is declared. -/
def declaration : Binding → Place
  | imported i => i.specifier
  | declared d => d
  | parameter n .. => n
  | other d => d

/-- The name is bound directly, not by a pattern. -/
def isSimple : Binding → Bool
  | imported _ => true
  | declared _ => true
  | parameter _ _ _ simple => simple
  | other _ => false

/-- The value a variable is declared with. -/
def initializer? : Binding → Option Node
  | declared d => d.node.child? .value
  | _ => none

end Binding

namespace Kind

/-- The kinds of function. -/
def isFunction : Kind → Bool
  | .functionDeclaration | .generatorFunctionDeclaration | .functionExpression
  | .generatorFunction | .arrowFunction | .methodDefinition => true
  | _ => false

/-- The kinds that open a block scope. -/
def opensBlock : Kind → Bool
  | .statementBlock | .forStatement | .forInStatement _ | .catchClause | .switchBody => true
  | _ => false

end Kind

/-- The scopes of a program, and the node that each belongs to; the scope of the program itself
is number zero. -/
structure ScopeTree where
  scopes : Scopes Binding
  /-- The latest owner comes first. -/
  owners : List (Node.Key × ScopeId)
  /-- Where each scope was opened, in the order of their numbers. -/
  places : Array Place

namespace ScopeTree

/-- The number of the scope of the program. -/
def programScope : ScopeId := 0

def declare (t : ScopeTree) (i : ScopeId) (name : Text) (b : Binding) : ScopeTree :=
  { t with scopes := t.scopes.declare i name b }

/-- Makes the scope of a node. -/
def openScope (t : ScopeTree) (p : Place) (parent : Option ScopeId) (isFunction : Bool) :
    ScopeTree :=
  { scopes := t.scopes.push parent isFunction
    owners := (p.node.key, t.scopes.size) :: t.owners
    places := t.places.push p }

/-- Lets a node share a scope. -/
def shareScope (t : ScopeTree) (n : Node) (i : ScopeId) : ScopeTree :=
  { t with owners := (n.key, i) :: t.owners }

/-- The scope of the nearest of some nodes, which lie around each other. -/
def scopeOfChain (t : ScopeTree) : List Node → ScopeId
  | [] => programScope
  | n :: ns =>
    match t.owners.lookup n.key with
    | some i => i
    | none => scopeOfChain t ns

/-- The innermost scope around a place, that of the node there included. -/
def scopeFor (t : ScopeTree) (p : Place) : ScopeId := t.scopeOfChain p.chain

/-- What a name means in a scope. -/
def resolve (t : ScopeTree) (i : ScopeId) (name : Text) : Option Binding :=
  t.scopes.resolve i name

/-- Binds the names of a pattern to a declaration as a whole. -/
def declarePattern (source : Source) (t : ScopeTree) (i : ScopeId) (pattern : Option Place)
    (declaration : Place) : ScopeTree :=
  match pattern with
  | none => t
  | some p => p.patternNames.foldl
      (fun t n => t.declare i (n.node.text source) (.other declaration)) t

/-- Binds what one declarator declares. -/
def declareVariable (source : Source) (i : ScopeId) (t : ScopeTree) (d : Place) : ScopeTree :=
  if d.node.kind ≠ .variableDeclarator then t
  else match d.child? .name with
    | none => t
    | some n =>
      if n.node.kind = .identifier then t.declare i (n.node.text source) (.declared d)
      else t.declarePattern source i (some n) d

/-- Binds the names of one parameter of a function. -/
def declareParameter (source : Source) (i : ScopeId) (function : Place) (t : ScopeTree)
    (parameter : Place × Nat) : ScopeTree :=
  let names := parameter.1.patternNames
  let simple := names.length == 1 && parameter.1.peel.node.kind == .identifier
  names.foldl
    (fun t n => t.declare i (n.node.text source) (.parameter n function parameter.2 simple)) t

/-- The parameters of a function. -/
def parametersOf (function : Place) : List Place :=
  match function.child? .parameter with
  | some p => [p]
  | none =>
    match function.child? .parameters with
    | some ps => ps.children
    | none => []

/-- Opens the scope of a function inside another and binds its parameters; a declaration is bound
outside, the name of an expression inside. -/
def enterFunction (source : Source) (t : ScopeTree) (i : ScopeId) (f : Place) : ScopeTree :=
  let declares := f.node.kind == .functionDeclaration
    || f.node.kind == .generatorFunctionDeclaration
  let named := f.node.kind == .functionExpression || f.node.kind == .generatorFunction
  let t := if declares then t.declarePattern source i (f.child? .name) f else t
  let own := t.scopes.size
  let t := t.openScope f (some i) true
  let t := if named then t.declarePattern source own (f.child? .name) f else t
  (parametersOf f).zipIdx.foldl (declareParameter source own f) t

/-- Opens the scope of a block and binds what its head declares. -/
def enterBlock (source : Source) (t : ScopeTree) (i : ScopeId) (b : Place) : ScopeTree :=
  let own := t.scopes.size
  let t := t.openScope b (some i) false
  match b.node.kind with
  | .catchClause => t.declarePattern source own (b.child? .parameter) b
  | .forInStatement (some w) =>
    let target := if w = .var then t.scopes.functionScope own else own
    t.declarePattern source target (b.child? .left) b
  | _ => t

/-- Binds what a declaration that is no function declares. -/
def enterDeclaration (source : Source) (t : ScopeTree) (i : ScopeId) (d : Place) : ScopeTree :=
  match d.node.kind with
  | .lexicalDeclaration => d.children.foldl (declareVariable source i) t
  | .variableDeclaration => d.children.foldl (declareVariable source (t.scopes.functionScope i)) t
  | .classDeclaration => t.declarePattern source i (d.child? .name) d
  | _ => t

/-- The block that is the body of a function. -/
def bodyBlock? (f : Node) : Option Node :=
  (f.child? .body).filter fun b => b.kind == .statementBlock

mutual

/-- Adds the scopes at or below a node that lies in scope `i`. -/
def visit (source : Source) (above : List Node) (i : ScopeId) (t : ScopeTree) : Node → ScopeTree
  | .mk r k s cs =>
    let n := Node.mk r k s cs
    if k.isFunction then
      let own := t.scopes.size
      let t := t.enterFunction source i ⟨n, above⟩
      match bodyBlock? n with
      | none => visitAll source (n :: above) own t cs
      | some b =>
        let t := visitOthers source (n :: above) own b.key (t.shareScope b own) cs
        visitBody source (n :: above) own b.key t cs
    else if k.opensBlock then
      let own := t.scopes.size
      visitAll source (n :: above) own (t.enterBlock source i ⟨n, above⟩) cs
    else visitAll source (n :: above) i (t.enterDeclaration source i ⟨n, above⟩) cs
termination_by structural n => n

/-- Adds the scopes of all nodes of a list. -/
def visitAll (source : Source) (above : List Node) (i : ScopeId) (t : ScopeTree) :
    List Node → ScopeTree
  | [] => t
  | c :: cs =>
    if c.isComment then visitAll source above i t cs
    else visitAll source above i (visit source above i t c) cs
termination_by structural l => l

/-- Adds the scopes of the nodes of a list other than the body of a function. -/
def visitOthers (source : Source) (above : List Node) (i : ScopeId) (body : Node.Key)
    (t : ScopeTree) : List Node → ScopeTree
  | [] => t
  | c :: cs =>
    if c.isComment || c.key == body then visitOthers source above i body t cs
    else visitOthers source above i body (visit source above i t c) cs
termination_by structural l => l

/-- Adds the scopes in the body of a function, which shares the scope of the function. -/
def visitBody (source : Source) (above : List Node) (i : ScopeId) (body : Node.Key)
    (t : ScopeTree) : List Node → ScopeTree
  | [] => t
  | .mk r k s cs :: rest =>
    let c := Node.mk r k s cs
    if r == .body && c.key == body then visitAll source (c :: above) i t cs
    else visitBody source above i body t rest
termination_by structural l => l

end

/-- The scopes of a program. -/
def ofProgram (p : Program) : Except Literal.InvalidEscape ScopeTree := do
  let root := Place.root p.root
  let imports ← Import.ofProgram p
  let t : ScopeTree := openScope ⟨.empty, [], #[]⟩ root none false
  let t := imports.foldl (fun t i => t.declare programScope i.1 (.imported i.2)) t
  return visitAll p.source [p.root] programScope t p.root.allChildren

end ScopeTree
end KeyTrace
