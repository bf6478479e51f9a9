/-
Functions, methods, classes and object literals.
-/
import KeyTrace.Grammar.Patterns
import KeyTrace.Grammar.Types

namespace KeyTrace.Grammar

open KeyTrace.Grammar.Parser

/-- The words in front of the name of a method. -/
def methodWords : List Text :=
  ["public", "private", "protected", "static", "override", "readonly", "async", "get", "set"].map
    text

/-- The words in front of the name of a method where there are no types. -/
def plainMethodWords : List Text := ["static", "async", "get", "set"].map text

/-- A method with its body. -/
def methodDefinition (sub : Sub) : Parser Node := do
  let start ← here
  let types := (← dialect).hasTypes
  let _ ← modifiers (if types then methodWords else plainMethodWords)
  let _ ← test (sign '*')
  let n ← propertyName sub
  if types then
    let _ ← test (sign '?')
  let s ← callSignature sub true
  let b ← sub (.block false)
  node .methodDefinition start (n.withRole .name :: s ++ [b.withRole .body])

/-- A member of an object literal. -/
def objectMember (sub : Sub) : Parser Node :=
  (do
    let start ← here
    symbol (text "...")
    let e ← sub.expression
    node .spreadElement start [e])
  <|> (do
    let start ← here
    let k ← propertyName sub
    sign ':'
    let v ← sub.expression
    node .pair start [k.withRole .key, v.withRole .value])
  <|> (do
    let k ← nameAs .shorthandPropertyIdentifier
    guard ((← atSign ',') || (← atSign '\x7d'))
    return k)
  <|> methodDefinition sub

/-- An object literal. -/
def objectLiteral (sub : Sub) : Parser Node := do
  let start ← here
  sign '\x7b'
  let ms ← elements (objectMember sub)
  sign '\x7d'
  node .object start ms

/-- An array literal. -/
def arrayLiteral (sub : Sub) : Parser Node := do
  let start ← here
  sign '['
  let es ← elements (do
    let start ← here
    if ← test (symbol (text "...")) then
      let e ← sub.expression
      node .spreadElement start [e]
    else sub.expression)
  sign ']'
  node .array start es

/-- A function written as an expression. -/
def functionExpression (sub : Sub) : Parser Node := do
  let start ← here
  let _ ← test (keyword (text "async"))
  keyword (text "function")
  let star ← test (sign '*')
  let n ← option? (nameAs .identifier)
  let s ← callSignature sub true
  let b ← sub (.block true)
  node (if star then .generatorFunction else .functionExpression) start
    ((n.map (·.withRole .name)).toList ++ s ++ [b.withRole .body])

/-- The arrow of a function and what follows it. -/
def arrowBody (sub : Sub) (ctx : Context) : Parser Node := do
  symbol (text "=>")
  if ← atSign '\x7b' then sub (.block true) <|> sub.expressionIn ctx
  else sub.expressionIn ctx

/-- A function written with an arrow, without the word `async`. -/
def plainArrow (sub : Sub) (ctx : Context) (start : Nat) : Parser Node :=
  (do
    let p ← nameLeaf
    let b ← arrowBody sub ctx
    node .arrowFunction start [p.withRole .parameter, b.withRole .body])
  <|> (do
    let s ← callSignature sub (!ctx.noReturnType)
    let b ← arrowBody sub ctx
    node .arrowFunction start (s ++ [b.withRole .body]))

/-- A function written with an arrow. -/
def arrowFunction (sub : Sub) (ctx : Context) : Parser Node := do
  let start ← here
  (do
    keyword (text "async")
    guard (!ctx.ends || !(← mayEnd ⟨true, false⟩))
    plainArrow sub ctx start) <|> plainArrow sub ctx start

/-- The words in front of the name of a member of a class. -/
def classMemberWords : List Text :=
  ["declare", "public", "private", "protected", "static", "override", "readonly", "abstract",
    "accessor", "async", "get", "set"].map text

/-- The end of a member of a class that has no body. -/
def fieldEnd (afterExpression : Bool) : Parser Unit := do
  let e : Input.Ending := ⟨afterExpression, true⟩
  if (← dialect).hasTypes then
    sign ',' <|> semicolon e
  else semicolon e

/-- A field of a class, or the head of a method without a body. -/
def classField (sub : Sub) : Parser Node := do
  let start ← here
  let types := (← dialect).hasTypes
  let decorators ← many (decorator sub)
  let _ ← modifiers (if types then classMemberWords else [text "static"])
  let _ ← test (sign '*')
  let n ← propertyName sub
  let _ ← test (do guard types; sign '?' <|> sign '!')
  let head := decorators ++ [n.withRole .name]
  match ← option? (do guard types; callSignature sub true) with
  | some s =>
    let m ← node .clause start (head ++ s)
    fieldEnd false
    return m
  | none =>
    let t ← option? (do guard types; typeMark sub)
    let v ← option? (initializer sub .final)
    let m ← node .clause start (head ++ t.toList ++ (v.map (·.withRole .value)).toList)
    fieldEnd v.isSome
    return m

/-- A block that runs when a class is made. -/
def staticBlock (sub : Sub) : Parser Node := do
  let start ← here
  keyword (text "static")
  let b ← sub (.block false)
  node .clause start [b.withRole .body]

/-- A method of a class with its decorators. -/
def classMethod (sub : Sub) : Parser (List Node) := do
  let decorators ← many (decorator sub)
  let m ← methodDefinition sub
  return decorators ++ [m]

/-- A member of a class. -/
def classMember (sub : Sub) : Parser (List Node) :=
  (do sign ';'; return [])
  <|> (do return [← staticBlock sub])
  <|> classMethod sub
  <|> (do
    guard (← dialect).hasTypes
    let _ ← test (keyword (text "static"))
    let m ← indexSignature sub
    fieldEnd false
    return [m])
  <|> (do return [← classField sub])

/-- The members of a class. -/
def classBody (sub : Sub) : Parser Node := do
  let start ← here
  sign '\x7b'
  let ms ← many (classMember sub)
  let trailing ← many (decorator sub)
  sign '\x7d'
  node .classBody start (ms.flatten ++ trailing)

/-- What a class extends, with the types it is applied to. -/
def baseClass (sub : Sub) : Parser (List Node) := do
  let e ← sub (.operation .extending unaryLevel false)
  let ts ← option? (do guard (← dialect).hasTypes; typeArguments sub)
  return e.withRole .value :: ts.toList

/-- What a class extends and implements. -/
def classHeritage (sub : Sub) : Parser (List Node) := do
  let start ← here
  let types := (← dialect).hasTypes
  let bases ← option? (do
    keyword (text "extends")
    if types then sepBy1 (baseClass sub) (sign ',') else return [← baseClass sub])
  let interfaces ← option? (do
    guard types
    keyword (text "implements")
    sepBy1 (sub .type) (sign ','))
  let all := (bases.getD []).flatten ++ interfaces.getD []
  if all.isEmpty then return [] else return [← node .clause start all]

/-- From the word `class` to the end of the body. -/
def classTail (sub : Sub) (nameNeeded : Bool) : Parser (List Node) := do
  let types := (← dialect).hasTypes
  keyword (text "class")
  let n ← option? (do
    guard (!(← atKeyword (text "extends")) && !(types && (← atKeyword (text "implements"))))
    nameAs (if types then .typeIdentifier else .identifier))
  guard (n.isSome || !nameNeeded)
  let ts ← option? (do guard types; typeParameters sub)
  let heritage ← classHeritage sub
  let b ← classBody sub
  return (n.map (·.withRole .name)).toList ++ ts.toList ++ heritage ++ [b.withRole .body]

/-- A class written as an expression. -/
def classExpression (sub : Sub) : Parser Node := do
  let start ← here
  let decorators ← many (decorator sub)
  let parts ← classTail sub false
  node .otherExpression start (decorators ++ parts)

end KeyTrace.Grammar
