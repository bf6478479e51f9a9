/-
Types. The analysis looks into them only for the names and calls they mention,
so one kind of node serves for all of them.
-/
import KeyTrace.Grammar.Signatures

namespace KeyTrace.Grammar

open KeyTrace.Grammar.Parser

/-- Parameters, an arrow and a result. -/
def functionType (sub : Sub) : Parser Node := do
  let start ← here
  let ts ← option? (typeParameters sub)
  let ps ← formalParameters sub
  symbol (text "=>")
  let r ← resultType sub
  node .typeSyntax start (ts.toList ++ [ps, r])

/-- The type of a constructor. -/
def constructorType (sub : Sub) : Parser Node := do
  let start ← here
  let _ ← test (keyword (text "abstract"))
  keyword (text "new")
  let ts ← option? (typeParameters sub)
  let ps ← formalParameters sub
  symbol (text "=>")
  let r ← sub .type
  node .typeSyntax start (ts.toList ++ [ps, r])

/-- A call of `import` in a type. -/
def importCall (sub : Sub) : Parser Node := do
  let start ← here
  let f ← keywordAs (text "import") .otherExpression
  let args ← arguments sub
  node .callExpression start [f.withRole .function, args.withRole .arguments]

/-- The members, indices and calls after the start of a type query. -/
def querySuffixes (sub : Sub) (start : Nat) : (n : Nat) → Node → Parser Node
  | 0, left => return left
  | n + 1, left => do
    if ← test (symbol (text "?.") <|> (do guard ((← peek 1) != 46); sign '.')) then
      let p ← privateName <|> wordAs .propertyIdentifier
      let m ← node .memberExpression start [left.withRole .object, p.withRole .property]
      querySuffixes sub start n m
    else if (← atSign '[') && (← sameLine) then
      match ← option? (do
          sign '['
          let k ← stringLiteral <|> numberLiteral <|> wordAs .typeSyntax
          sign ']'
          return k) with
      | some k =>
        let m ← node .otherExpression start [left.withRole .object, k.withRole .index]
        querySuffixes sub start n m
      | none => return left
    else if (← atSign '(') && (← sameLine) then
      let args ← arguments sub
      let m ← node .callExpression start [left.withRole .function, args.withRole .arguments]
      querySuffixes sub start n m
    else return left

/-- The type of a value. -/
def typeQuery (sub : Sub) : Parser Node := do
  let start ← here
  keyword (text "typeof")
  let inner ← here
  let first ← importCall sub <|> keywordAs (text "this") .otherExpression <|> nameAs .identifier
  let q ← fun i => querySuffixes sub inner (i.chars.size + 1) first i
  let ts ← option? (do guard (← sameLine); typeArguments sub)
  node .typeSyntax start (q :: ts.toList)

/-- A dotted name of types, possibly applied to types. -/
def typeName (sub : Sub) : Parser Node := do
  let start ← here
  let parts ← sepBy1 (wordAs .typeIdentifier) (do guard ((← peek 1) != 46); sign '.')
  let name ← match parts with
    | [single] => pure single
    | [] => fail
    | first :: rest =>
      let mid := rest.dropLast.map fun n => Node.mk .property .propertyIdentifier n.span []
      let module := Node.mk .object .identifier first.span []
      node .typeSyntax start (module :: mid ++ rest.getLast?.toList)
  match ← option? (typeArguments sub) with
  | some ts => node .typeSyntax start [name, ts]
  | none => return name

/-- A part of a template literal type. -/
def templateTypePart (sub : Sub) : Parser Node :=
  (do
    let start ← here
    symbol (text "$\x7b")
    let t ← sub .type
    symbolRaw (text "\x7d")
    node .typeSyntax start [t]) <|> templateText

/-- A template literal as a type. -/
def templateType (sub : Sub) : Parser Node := do
  let start ← here
  symbolRaw [96]
  let parts ← many (templateTypePart sub)
  guard (parts.all fun n => n.kind != .escapeSequence)
  symbol [96]
  node .typeSyntax start parts

/-- A member of a tuple type. -/
def tupleMember (sub : Sub) : Parser Node :=
  (do
    let start ← here
    let rest ← test (symbol (text "..."))
    let inner ← here
    let n ← nameAs .identifier
    let n ← if rest then node .restPattern inner [n] else pure n
    let optional ← if rest then pure false else test (sign '?')
    let t ← typeMark sub
    node (if optional then .optionalParameter else .requiredParameter) start [n, t])
  <|> (do
    let start ← here
    symbol (text "...")
    let t ← sub .type
    node .typeSyntax start [t])
  <|> (do
    let start ← here
    let t ← sub .type
    if ← test (sign '?') then node .typeSyntax start [t] else return t)

/-- A tuple type. -/
def tupleType (sub : Sub) : Parser Node := do
  let start ← here
  sign '['
  let ts ← sepBy (tupleMember sub) (sign ',')
  let _ ← test (sign ',')
  sign ']'
  node .typeSyntax start ts

/-- The names a mapped type runs over. -/
def mappedClause (sub : Sub) : Parser (List Node) := do
  let n ← nameAs .typeIdentifier
  keyword (text "in")
  let t ← sub .type
  let renamed ← option? (do keyword (text "as"); sub .type)
  return n :: t :: renamed.toList

/-- A member that stands for many properties. -/
def indexSignature (sub : Sub) : Parser Node := do
  let start ← here
  let signed ← test (sign '-' <|> sign '+')
  let readonly ← test (keyword (text "readonly"))
  guard (!signed || readonly)
  sign '['
  let inside ← (do
    let n ← nameAs .identifier
    let t ← (do sign ':'; sub .type)
    return [n, t]) <|> mappedClause sub
  sign ']'
  let _ ← test (symbol (text "-?") <|> symbol (text "+?") <|> symbol (text "?"))
  let t ← typeMark sub
  node .clause start (inside ++ [t])

/-- Words in front of a member of a type. -/
def memberWords : List Text :=
  ["public", "private", "protected", "static", "override", "readonly", "async", "get", "set"].map
    text

/-- A member of an object type. -/
def typeMember (sub : Sub) : Parser Node :=
  indexSignature sub
  <|> (do
    let start ← here
    let _ ← test (keyword (text "abstract"))
    keyword (text "new")
    let ts ← option? (typeParameters sub)
    let ps ← formalParameters sub
    let t ← option? (typeMark sub)
    node .clause start (ts.toList ++ [ps] ++ t.toList))
  <|> (do
    let start ← here
    let s ← callSignature sub true
    node .clause start s)
  <|> (do
    let start ← here
    let _ ← modifiers memberWords
    let _ ← test (sign '*')
    let n ← propertyName sub
    let _ ← test (sign '?')
    match ← option? (callSignature sub true) with
    | some s => node .clause start (n.withRole .name :: s)
    | none =>
      let t ← option? (typeMark sub)
      node .clause start (n.withRole .name :: t.toList))

/-- The end of a member of a type. -/
def memberEnd : Parser Unit := sign ',' <|> semicolon ⟨false, false⟩

/-- An object type. -/
def objectType (sub : Sub) : Parser Node := do
  let start ← here
  let exact ← test (symbol (text "\x7b|"))
  if !exact then sign '\x7b'
  let _ ← test (sign ',' <|> sign ';')
  let members ← sepBy (typeMember sub) memberEnd
  let _ ← test memberEnd
  if exact then symbol (text "|\x7d") else sign '\x7d'
  node .typeSyntax start members

/-- A type that starts with a word of its own meaning. -/
def wordType (sub : Sub) (w : Text) : Parser Node := do
  let start ← here
  if w == text "typeof" then typeQuery sub
  else if w == text "keyof" || w == text "readonly" then
    let _ ← word
    let t ← sub .type
    node .typeSyntax start [t]
  else if w == text "infer" then
    let _ ← word
    let n ← nameAs .typeIdentifier
    let bound ← option? (do keyword (text "extends"); sub .type)
    node .typeSyntax start (n :: bound.toList)
  else if w == text "unique" then
    let _ ← word
    keyword (text "symbol")
    node .typeSyntax start []
  else if w == text "new" || w == text "abstract" then constructorType sub
  else if w == text "import" then
    let first ← importCall sub
    let q ← fun i => querySuffixes sub start (i.chars.size + 1) first i
    let ts ← option? (do guard (← sameLine); typeArguments sub)
    node .typeSyntax start (q :: ts.toList)
  else fail

/-- A type without suffixes or operators. -/
def atomicType (sub : Sub) : Parser Node := do
  let start ← here
  let c ← peek 0
  if c == 40 then
    functionType sub <|> (do
      sign '('
      let t ← sub .type
      sign ')'
      node .typeSyntax start [t])
  else if c == 60 then functionType sub
  else if c == 123 then objectType sub
  else if c == 91 then tupleType sub
  else if c == 96 then templateType sub
  else if c == 34 || c == 39 then stringLiteral
  else if isDigit c || c == 46 then numberLiteral
  else if c == 45 || c == 43 then
    let _ ← test (sign '-' <|> sign '+')
    let n ← numberLiteral
    node .typeSyntax start [n]
  else if c == 63 then
    sign '?'
    let t ← sub .type
    node .typeSyntax start [t]
  else if c == 42 then
    sign '*'
    node .typeSyntax start []
  else
    let w ← peekWord
    wordType sub w <|> typeName sub

/-- The brackets after a type. -/
def typeSuffixes (sub : Sub) (start : Nat) : (n : Nat) → Node → Parser Node
  | 0, left => return left
  | n + 1, left => do
    if (← atSign '[') && (← sameLine) then
      match ← option? (do
          sign '['
          let t ← option? (sub .type)
          sign ']'
          return t) with
      | some t =>
        let m ← node .typeSyntax start (left :: t.toList)
        typeSuffixes sub start n m
      | none => return left
    else return left

/-- A type without operators at its top. -/
def operandType (sub : Sub) : Parser Node := do
  let start ← here
  let first ← atomicType sub
  fun i => typeSuffixes sub start (i.chars.size + 1) first i

/-- A single `a`, not doubled. -/
def single (a : Char) : Parser Unit := do
  guard ((← peek 1) != cp a)
  sign a

/-- Types joined by an operator, which may also stand in front of the first. -/
def joinedType (p : Parser Node) (a : Char) : Parser Node := do
  let start ← here
  let lead ← test (single a)
  let first ← p
  let rest ← many (do single a; p)
  if rest.isEmpty && !lead then return first else node .typeSyntax start (first :: rest)

/-- A type. -/
def typeExpression (sub : Sub) : Parser Node := do
  let start ← here
  let union := joinedType (joinedType (operandType sub) '&') '|'
  let left ← union
  match ← option? (do
      keyword (text "extends")
      let right ← union
      sign '?'
      let yes ← sub .type
      sign ':'
      let no ← sub .type
      return [right, yes, no]) with
  | some cs => node .typeSyntax start (left :: cs)
  | none => return left

end KeyTrace.Grammar
