/-
Statements and declarations.

A word that opens a statement opens nothing else, except where it may also be a
name: then the statement is tried first and the expression after it.
-/
import KeyTrace.Grammar.Modules

namespace KeyTrace.Grammar

open KeyTrace.Grammar.Parser

/-- Ends a construct that needs no semicolon, at a place that counts as its end. -/
def optionalEnd (afterExpression : Bool) : Parser Unit := do
  let _ ← test (endHere ⟨afterExpression, false⟩)

/-- A comment in the form of HTML, up to the end of its line. -/
def htmlComment : Parser Unit := fun i c =>
  if i.reads (text "<!--") c.pos || i.reads (text "-->") c.pos then
    let e := i.skipWhile (fun a => a != 0 && a != 10 && a != 0x2028 && a != 0x2029) c.pos
    let n : Node := .mk .none .htmlComment ⟨c.pos, e⟩ []
    advance e i { c with comments := n :: c.comments }
  else none

/-- Statements up to something that is none. -/
def statements (sub : Sub) : Parser (List Node) := do
  let ss ← many (do
    let _ ← many htmlComment
    sub .statement)
  let _ ← many htmlComment
  return ss

/-- Statements between braces. -/
def block (sub : Sub) (inExpression : Bool) : Parser Node := do
  let start ← here
  sign '\x7b'
  let ss ← statements sub
  sign '\x7d'
  optionalEnd inExpression
  node .statementBlock start ss

/-- A name or pattern with its type and value. -/
def variableDeclarator (sub : Sub) (ctx : Context) : Parser Node := do
  let start ← here
  let types := (← dialect).hasTypes
  let n ← bindingTarget sub
  let sure ← test (do
    guard (types && n.kind == .identifier)
    sign '!'
    guard (← atSign ':'))
  let t ← option? (do guard types; typeMark sub)
  let v ← option? (do guard !sure; initializer sub ctx)
  node .variableDeclarator start
    (n.withRole .name :: t.toList ++ (v.map (·.withRole .value)).toList)

/-- The variables of a declaration and whether the last has a value. -/
def declarators (sub : Sub) (ctx : Context) : Parser (List Node × Bool) := do
  let ds ← sepBy1 (variableDeclarator sub ctx) (sign ',')
  return (ds, (ds.getLast?.bind (·.child? .value)).isSome)

/-- A declaration of variables. -/
def variableDeclaration (sub : Sub) : Parser Node := do
  let start ← here
  let lexical ← (do keyword (text "var"); return false)
    <|> (do keyword (text "const"); return true)
    <|> (do
      keyword (text "let")
      guard (!(← mayEnd ⟨true, false⟩))
      return true)
  let (ds, valued) ← declarators sub .final
  semicolon ⟨valued, false⟩
  node (if lexical then .lexicalDeclaration else .variableDeclaration) start ds

/-- A declaration of resources. -/
def usingDeclaration (sub : Sub) : Parser Node := do
  let start ← here
  guard (!(← dialect).hasTypes)
  let _ ← test (keyword (text "await"))
  keyword (text "using")
  guard (!(← mayEnd ⟨true, false⟩))
  let (ds, valued) ← declarators sub .final
  semicolon ⟨valued, false⟩
  node .otherDeclaration start ds

/-- A function with a name: its body, or its head alone where there are types. -/
def functionDeclaration (sub : Sub) : Parser Node := do
  let start ← here
  let _ ← test (do
    keyword (text "async")
    guard (!(← mayEnd ⟨true, false⟩)))
  keyword (text "function")
  let star ← test (sign '*')
  let n ← nameAs .identifier
  let s ← callSignature sub true
  let head := n.withRole .name :: s
  match ← option? (sub (.block false)) with
  | some b =>
    optionalEnd false
    node (if star then .generatorFunctionDeclaration else .functionDeclaration) start
      (head ++ [b.withRole .body])
  | none =>
    guard ((← dialect).hasTypes && !star)
    semicolon ⟨false, true⟩
    node .otherDeclaration start head

/-- A class with a name. -/
def classDeclaration (sub : Sub) : Parser Node := do
  let start ← here
  let decorators ← many (decorator sub)
  let abstract ← test (do
    guard (← dialect).hasTypes
    keyword (text "abstract"))
  let parts ← classTail sub true
  if !abstract then optionalEnd false
  node (if abstract then .otherDeclaration else .classDeclaration) start (decorators ++ parts)

/-- A name for a type. -/
def typeAlias (sub : Sub) : Parser Node := do
  let start ← here
  keyword (text "type")
  guard (!(← mayEnd ⟨true, false⟩))
  let n ← nameAs .typeIdentifier
  let ps ← option? (typeParameters sub)
  sign '='
  let t ← sub .type
  plainEnd
  node .otherDeclaration start (n.withRole .name :: ps.toList ++ [t])

/-- An interface. -/
def interfaceDeclaration (sub : Sub) : Parser Node := do
  let start ← here
  keyword (text "interface")
  let n ← nameAs .typeIdentifier
  let ps ← option? (typeParameters sub)
  let bases ← option? (do keyword (text "extends"); sepBy1 (typeName sub) (sign ','))
  let b ← objectType sub
  node .otherDeclaration start (n.withRole .name :: ps.toList ++ bases.getD [] ++ [b])

/-- A member of an enumeration. -/
def enumMember (sub : Sub) : Parser Node := do
  let start ← here
  let n ← propertyName sub
  match ← option? (initializer sub .inner) with
  | some v => node .clause start [n.withRole .name, v.withRole .value]
  | none => return n

/-- An enumeration. -/
def enumDeclaration (sub : Sub) : Parser Node := do
  let start ← here
  let _ ← test (keyword (text "const"))
  keyword (text "enum")
  let n ← nameAs .identifier
  let inner ← here
  sign '\x7b'
  let ms ← sepBy (enumMember sub) (sign ',')
  if !ms.isEmpty then
    let _ ← test (sign ',')
  sign '\x7d'
  let b ← node .clause inner ms
  node .otherDeclaration start [n.withRole .name, b.withRole .body]

/-- A module or namespace. -/
def moduleDeclaration (sub : Sub) : Parser Node := do
  let start ← here
  keyword (text "module") <|> keyword (text "namespace")
  guard (!(← mayEnd ⟨true, false⟩))
  let n ← stringLiteral <|> nestedName
  let b ← option? (sub (.block false))
  node .otherDeclaration start (n.withRole .name :: (b.map (·.withRole .body)).toList)

/-- A declaration that may stand after `declare`. -/
def typedDeclaration (sub : Sub) : Parser Node :=
  typeAlias sub <|> interfaceDeclaration sub <|> enumDeclaration sub <|> moduleDeclaration sub
    <|> importAlias

/-- A declaration of something that exists elsewhere. -/
def ambientDeclaration (sub : Sub) : Parser Node := do
  let start ← here
  keyword (text "declare")
  guard (!(← mayEnd ⟨true, false⟩))
  (do
    keyword (text "global")
    let b ← sub (.block false)
    node .otherDeclaration start [b])
  <|> (do
    keyword (text "module")
    sign '.'
    let n ← wordAs .propertyIdentifier
    let t ← typeMark sub
    plainEnd
    node .otherDeclaration start [n, t])
  <|> (do
    let d ← functionDeclaration sub <|> classDeclaration sub <|> typedDeclaration sub
      <|> variableDeclaration sub
    node .otherDeclaration start [d])

/-- A declaration. -/
def declaration (sub : Sub) : Parser Node :=
  functionDeclaration sub <|> classDeclaration sub
  <|> (do
    guard (← dialect).hasTypes
    typedDeclaration sub <|> ambientDeclaration sub)
  <|> usingDeclaration sub <|> variableDeclaration sub

/-- An expression as a statement. -/
def expressionStatement (sub : Sub) : Parser Node := do
  let start ← here
  let e ← expressions sub .final
  expressionEnd
  node .otherStatement start [e]

/-- An export statement. -/
def exportStatement (sub : Sub) : Parser Node := do
  let start ← here
  let decorators ← many (decorator sub)
  keyword (text "export")
  let body ← (do guard decorators.isEmpty; exportBody sub)
    <|> (do
      keyword (text "default")
      (do return [(← declaration sub).withRole .declaration])
      <|> (do
        let e ← sub.expressionIn .final
        expressionEnd
        return [e.withRole .value]))
    <|> (do return [(← declaration sub).withRole .declaration])
  node .exportStatement start (decorators ++ body)

/-- A condition, branch and other branch. -/
def ifStatement (sub : Sub) : Parser Node := do
  let start ← here
  keyword (text "if")
  let c ← parenthesized sub
  let yes ← sub .statement
  let no ← option? (do
    let start ← here
    keyword (text "else")
    let s ← sub .statement
    node .clause start [s])
  node .otherStatement start (c :: yes :: no.toList)

/-- One case of a switch, its value first. -/
def switchCase (sub : Sub) : Parser Node := do
  let start ← here
  let v ← (do keyword (text "case"); return [(← expressions sub .inner).withRole .value])
    <|> (do keyword (text "default"); return [])
  sign ':'
  let ss ← many (do
    let _ ← many htmlComment
    guard (!(← atKeyword (text "case")) && !(← atKeyword (text "default")))
    sub .statement)
  node .clause start (v ++ ss)

/-- The cases of a switch. -/
def switchBody (sub : Sub) : Parser Node := do
  let start ← here
  sign '\x7b'
  let cs ← many (switchCase sub)
  sign '\x7d'
  node .switchBody start cs

/-- A switch. -/
def switchStatement (sub : Sub) : Parser Node := do
  let start ← here
  keyword (text "switch")
  let v ← parenthesized sub
  let b ← switchBody sub
  node .otherStatement start [v.withRole .value, b.withRole .body]

/-- The head of a loop over a collection: what it declares, its target and the collection. -/
def forInHead (sub : Sub) : Parser (Option DeclarationWord × List Node) := do
  let collection : Parser Node := do
    keyword (text "in") <|> keyword (text "of")
    let e ← expressions sub .inner
    sign ')'
    return e.withRole .right
  sign '('
  (do
    let w ← (do keyword (text "var"); return .var) <|> (do keyword (text "let"); return .lets)
      <|> (do keyword (text "const"); return DeclarationWord.const)
    let t ← bindingTarget sub
    let v ← option? (do
      guard (w == .var)
      initializer sub { Context.inner with noIn := true })
    let c ← collection
    return (some w, t.withRole .left :: (v.map (·.withRole .value)).toList ++ [c]))
  <|> (do
    let t ← (do
      let p ← parenthesized sub
      guard ((← atKeyword (text "in")) || (← atKeyword (text "of")))
      return p) <|> sub (.pattern true)
    let c ← collection
    return (none, [t.withRole .left, c]))

/-- A loop over a collection. -/
def forInStatement (sub : Sub) : Parser Node := do
  let start ← here
  keyword (text "for")
  let _ ← test (keyword (text "await"))
  let (w, head) ← forInHead sub
  let b ← sub .statement
  node (.forInStatement w) start (head ++ [b.withRole .body])

/-- A loop with a counter. -/
def forStatement (sub : Sub) : Parser Node := do
  let start ← here
  let clause : Parser (List Node) :=
    (do sign ';'; return []) <|> (do
      let e ← expressions sub .inner
      sign ';'
      return [e])
  keyword (text "for")
  sign '('
  let first ← (do
      let d ← here
      let lexical ← (do keyword (text "var"); return false)
        <|> (do keyword (text "let") <|> keyword (text "const"); return true)
      let (ds, _) ← declarators sub .inner
      sign ';'
      return [← node (if lexical then .lexicalDeclaration else .variableDeclaration) d ds])
    <|> clause
  let condition ← clause
  let step ← option? (expressions sub .inner)
  sign ')'
  let b ← sub .statement
  node .forStatement start (first ++ condition ++ step.toList ++ [b.withRole .body])

/-- A loop that tests before each round. -/
def whileStatement (sub : Sub) : Parser Node := do
  let start ← here
  keyword (text "while") <|> keyword (text "with")
  let c ← parenthesized sub
  let b ← sub .statement
  node .otherStatement start [c, b.withRole .body]

/-- A loop that tests after each round. -/
def doStatement (sub : Sub) : Parser Node := do
  let start ← here
  keyword (text "do")
  let b ← sub .statement
  keyword (text "while")
  let c ← parenthesized sub
  let _ ← test plainEnd
  node .otherStatement start [b.withRole .body, c]

/-- What handles an exception. -/
def catchClause (sub : Sub) : Parser Node := do
  let start ← here
  keyword (text "catch")
  let p ← option? (do
    sign '('
    let p ← bindingTarget sub
    let t ← option? (do guard (← dialect).hasTypes; typeMark sub)
    sign ')'
    return p.withRole .parameter :: t.toList)
  let b ← sub (.block false)
  node .catchClause start (p.getD [] ++ [b.withRole .body])

/-- A block with what handles its exceptions and what runs in any case. -/
def tryStatement (sub : Sub) : Parser Node := do
  let start ← here
  keyword (text "try")
  let b ← sub (.block false)
  let c ← option? (catchClause sub)
  let f ← option? (do
    let start ← here
    keyword (text "finally")
    let b ← sub (.block false)
    node .clause start [b.withRole .body])
  node .otherStatement start (b.withRole .body :: c.toList ++ f.toList)

/-- A statement that leaves the one around it. -/
def jumpStatement (sub : Sub) : Parser Node := do
  let start ← here
  (do
    keyword (text "return")
    (do plainEnd; node .otherStatement start []) <|> (do
      let e ← expressions sub .final
      expressionEnd
      node .otherStatement start [e]))
  <|> (do
    keyword (text "throw")
    let e ← expressions sub .final
    expressionEnd
    node .otherStatement start [e])
  <|> (do
    keyword (text "break") <|> keyword (text "continue")
    (do plainEnd; node .otherStatement start []) <|> (do
      let l ← nameAs .statementIdentifier
      plainEnd
      node .otherStatement start [l]))
  <|> (do
    keyword (text "debugger")
    plainEnd
    node .otherStatement start [])

/-- A statement with a name. -/
def labeledStatement (sub : Sub) : Parser Node := do
  let start ← here
  let l ← nameAs .statementIdentifier
  sign ':'
  let s ← sub .statement
  node .labeledStatement start [l, s.withRole .body]

/-- What starts with a brace: a block, or an object literal if only that can be read. A name
and a colon after the brace are read as a property if they can be. -/
def bracedStatement (sub : Sub) : Parser Node := do
  let property ← ahead (do
    sign '\x7b'
    let _ ← word
    sign ':')
  if property then expressionStatement sub <|> sub (.block false)
  else sub (.block false) <|> expressionStatement sub

/-- A statement. -/
def statement (sub : Sub) : Parser Node := do
  let start ← here
  let c ← peek 0
  if c == 123 then bracedStatement sub
  else if c == 59 then
    sign ';'
    node .otherStatement start []
  else if c == 64 then exportStatement sub <|> classDeclaration sub <|> expressionStatement sub
  else if !(isWordStart c || c == 92) then expressionStatement sub
  else
    let w ← peekWord
    let types := (← dialect).hasTypes
    if w == text "export" then exportStatement sub
    else if w == text "import" then
      importStatement sub <|> (do guard types; importAlias) <|> expressionStatement sub
    else if w == text "if" then ifStatement sub
    else if w == text "for" then forInStatement sub <|> forStatement sub
    else if w == text "while" || w == text "with" then whileStatement sub
    else if w == text "do" then doStatement sub
    else if w == text "switch" then switchStatement sub
    else if w == text "try" then tryStatement sub
    else if w == text "return" || w == text "throw" || w == text "break" || w == text "continue"
        || w == text "debugger" then
      jumpStatement sub
    else if w == text "var" then variableDeclaration sub
    else if w == text "const" then variableDeclaration sub <|> (do guard types; enumDeclaration sub)
    else if types && (w == text "enum" || w == text "interface") then typedDeclaration sub
    else labeledStatement sub <|> declaration sub <|> expressionStatement sub

end KeyTrace.Grammar
