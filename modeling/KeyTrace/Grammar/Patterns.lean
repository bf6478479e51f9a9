/-
Targets of declarations, parameters and assignments: names, members, and the
object and array patterns made of them.
-/
import KeyTrace.Grammar.Signatures

namespace KeyTrace.Grammar

open KeyTrace.Grammar.Parser

/-- The kinds of expression a value can be assigned to. -/
def isTarget : Kind → Bool
  | .identifier | .undefinedName | .memberExpression | .subscriptExpression | .nonNullExpression
  | .objectPattern | .arrayPattern => true
  | _ => false

/-- A default after a pattern makes an assignment pattern of it. -/
def withDefault (sub : Sub) (kind : Kind) (start : Nat) (p : Node) : Parser Node := do
  match ← option? (initializer sub .inner) with
  | some v => node kind start [p.withRole .left, v.withRole .right]
  | none => return p

/-- One property of an object pattern. -/
def patternProperty (sub : Sub) (members : Bool) : Parser Node :=
  (do
    let start ← here
    symbol (text "...")
    let p ← sub (.pattern members)
    node .restPattern start [p])
  <|> (do
    let start ← here
    let k ← propertyName sub
    sign ':'
    let inner ← here
    let p ← sub (.pattern members)
    let v ← withDefault sub .assignmentPattern inner p
    node .pairPattern start [k.withRole .key, v.withRole .value])
  <|> (do
    let start ← here
    let c ← peek 0
    let p ← if c == 123 || c == 91 then sub (.pattern members)
      else nameAs .shorthandPropertyIdentifierPattern
    let w ← withDefault sub .objectAssignmentPattern start p
    guard (c != 123 && c != 91 || w.kind == .objectAssignmentPattern)
    return w)

/-- An object pattern. -/
def objectPattern (sub : Sub) (members : Bool) : Parser Node := do
  let start ← here
  sign '\x7b'
  let ps ← elements (patternProperty sub members)
  sign '\x7d'
  node .objectPattern start ps

/-- An array pattern. -/
def arrayPattern (sub : Sub) (members : Bool) : Parser Node := do
  let start ← here
  sign '['
  let ps ← elements (do
    let start ← here
    let p ← sub (.pattern members)
    withDefault sub .assignmentPattern start p)
  sign ']'
  node .arrayPattern start ps

/-- An object or array pattern. -/
def destructuring (sub : Sub) (members : Bool) : Parser Node :=
  objectPattern sub members <|> arrayPattern sub members

/-- A name that an expression may start with, as a leaf of the tree. -/
def nameLeaf : Parser Node := do
  let start ← here
  let w ← name
  guard (!expressionWords.contains w)
  node (if w == text "undefined" then .undefinedName else .identifier) start []

/-- A pattern. -/
def pattern (sub : Sub) (members : Bool) : Parser Node := do
  let start ← here
  let c ← peek 0
  if c == 46 then
    symbol (text "...")
    let p ← sub (.pattern members)
    node .restPattern start [p]
  else
    let plain ← option? (do
      let p ← destructuring sub members <|> nameLeaf
      let d ← peek 0
      guard (d != 40 && d != 91 && d != 33 && !(d == 46 && (← peek 1) != 46)
        && !(d == 63 && (← peek 1) == 46))
      return p)
    match plain with
    | some p => return p
    | none =>
      guard members
      let e ← sub (.operation .inner unaryLevel true)
      guard (isTarget e.kind)
      return e

/-- What a declaration may bind: a name or a destructuring pattern. -/
def bindingTarget (sub : Sub) : Parser Node := destructuring sub false <|> nameAs .identifier

end KeyTrace.Grammar
