/-
What functions, methods and types share: type parameters and arguments,
annotations, parameter lists, argument lists and decorators.
-/
import KeyTrace.Grammar.Literals

namespace KeyTrace.Grammar

open KeyTrace.Grammar.Parser

/-- The arguments of a call. -/
def arguments (sub : Sub) : Parser Node := do
  let start ← here
  sign '('
  let args ← elements (do
    let start ← here
    if ← test (symbol (text "...")) then
      let e ← sub.expression
      node .spreadElement start [e]
    else sub.expression)
  sign ')'
  node .arguments start args

/-- The types a generic is applied to. -/
def typeArguments (sub : Sub) : Parser Node := do
  let start ← here
  sign '<'
  let ts ← sepBy1 (sub .type) (sign ',')
  let _ ← test (sign ',')
  sign '>'
  node .typeArguments start ts

/-- One parameter of a generic. -/
def typeParameter (sub : Sub) : Parser Node := do
  let start ← here
  let _ ← test (do keyword (text "const"); guard (isWordStart (← peek 0)))
  let n ← nameAs .typeIdentifier
  let bound ← option? (do
    (do keyword (text "extends")) <|> sign ':'
    sub .type)
  let default ← option? (do sign '='; sub .type)
  node .typeSyntax start (n :: bound.toList ++ default.toList)

/-- The parameters of a generic. -/
def typeParameters (sub : Sub) : Parser Node := do
  let start ← here
  sign '<'
  let ps ← sepBy1 (typeParameter sub) (sign ',')
  let _ ← test (sign ',')
  sign '>'
  node .typeSyntax start ps

/-- A colon and a type. -/
def typeMark (sub : Sub) : Parser Node := do
  let start ← here
  sign ':'
  let t ← sub .type
  node .typeSyntax start [t]

/-- The subject of a type predicate. -/
def predicateSubject : Parser Node :=
  keywordAs (text "this") .otherExpression <|> nameAs .identifier

/-- A statement about the type of a name. -/
def typePredicate (sub : Sub) : Parser Node := do
  let start ← here
  let n ← predicateSubject
  keyword (text "is")
  let t ← sub .type
  node .typeSyntax start [n, t]

/-- An assertion about the type of a name. -/
def typeAssertion (sub : Sub) : Parser Node := do
  let start ← here
  keyword (text "asserts")
  let n ← typePredicate sub <|> predicateSubject
  node .typeSyntax start [n]

/-- What a function may be said to return. -/
def resultType (sub : Sub) : Parser Node :=
  typePredicate sub <|> typeAssertion sub <|> sub .type

/-- A colon and what a function returns. -/
def resultMark (sub : Sub) : Parser Node := do
  let start ← here
  sign ':'
  let t ← resultType sub
  node .typeSyntax start [t]

/-- The members after the first name of a decorator, each one of what stands before it. -/
def decoratorMembers (start : Nat) : (n : Nat) → Node → Parser Node
  | 0, left => return left
  | n + 1, left => do
    match ← option? (do sign '.'; wordAs .propertyIdentifier) with
    | some p =>
      let m ← node .memberExpression start [left.withRole .object, p.withRole .property]
      decoratorMembers start n m
    | none => return left

/-- The dotted name of a decorator. -/
def decoratorName : Parser Node := do
  let start ← here
  let first ← nameAs .identifier
  fun i => decoratorMembers start (i.chars.size + 1) first i

/-- The name of a decorator, called or not. -/
def decoratorTarget (sub : Sub) : Parser Node := do
  let start ← here
  let n ← decoratorName
  let ts ← option? (do guard (← dialect).hasTypes; typeArguments sub)
  match ← option? (arguments sub) with
  | some args =>
    node .callExpression start (n.withRole .function :: ts.toList ++ [args.withRole .arguments])
  | none =>
    guard ts.isNone
    return n

/-- A decorator. -/
def decorator (sub : Sub) : Parser Node := do
  let start ← here
  sign '@'
  let n ← (do
    let start ← here
    sign '('
    let n ← decoratorTarget sub
    sign ')'
    node .parenthesizedExpression start [n]) <|> decoratorTarget sub
  node .clause start [n]

/-- An equals sign and an expression. -/
def initializer (sub : Sub) (ctx : Context) : Parser Node := do
  guard ((← peek 1) != 62)
  sign '='
  sub.expressionIn ctx

/-- Words in front of a parameter that is a member too. -/
def parameterWords : List Text :=
  ["public", "private", "protected", "override", "readonly"].map text

/-- One parameter of a function. -/
def formalParameter (sub : Sub) : Parser Node := do
  let start ← here
  if (← dialect).hasTypes then
    let decorators ← many (decorator sub)
    let _ ← many (do
      let _ ← oneOf parameterWords
      guard (isWordStart (← peek 0)))
    let p ← (do
      let this' ← keywordAs (text "this") .otherExpression
      guard (!(← atSign '.') && !(← atSign '['))
      return this') <|> sub (.pattern false)
    let optional ← test (sign '?')
    let t ← option? (typeMark sub)
    let v ← option? (initializer sub .inner)
    node (if optional then .optionalParameter else .requiredParameter) start
      (decorators ++ [p.withRole .pattern] ++ t.toList ++ (v.map (·.withRole .value)).toList)
  else
    let p ← sub (.pattern false)
    match ← option? (initializer sub .inner) with
    | some v => node .assignmentPattern start [p.withRole .left, v.withRole .right]
    | none => return p

/-- The parameters of a function. -/
def formalParameters (sub : Sub) : Parser Node := do
  let start ← here
  sign '('
  let ps ← sepBy (formalParameter sub) (sign ',')
  if !ps.isEmpty then
    let _ ← test (sign ',')
  sign ')'
  node .formalParameters start ps

/-- The parameters of a function with the types around them. -/
def callSignature (sub : Sub) (returns : Bool) : Parser (List Node) := do
  let types := (← dialect).hasTypes
  let ts ← option? (do guard types; typeParameters sub)
  let ps ← formalParameters sub
  let r ← option? (do guard (types && returns); resultMark sub)
  return ts.toList ++ [ps.withRole .parameters] ++ r.toList

end KeyTrace.Grammar
