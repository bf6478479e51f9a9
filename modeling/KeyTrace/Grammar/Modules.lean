/-
Import and export statements.
-/
import KeyTrace.Grammar.Expressions

namespace KeyTrace.Grammar

open KeyTrace.Grammar.Parser

/-- The end of a statement whose last token is not an expression. -/
def plainEnd : Parser Unit := semicolon ⟨false, false⟩

/-- The end of a statement whose last token belongs to an expression. -/
def expressionEnd : Parser Unit := semicolon ⟨true, false⟩

/-- The module a clause names. -/
def fromClause : Parser Node := do
  keyword (text "from")
  let s ← stringLiteral
  return s.withRole .source

/-- The attributes of an import. -/
def importAttribute (sub : Sub) : Parser Node := do
  let start ← here
  keyword (text "with") <|> keyword (text "assert")
  let o ← objectLiteral sub
  node .clause start [o]

/-- A name in a clause, which may be quoted. -/
def exportName : Parser Node := stringLiteral <|> wordAs .identifier

/-- The word of an import or export of types alone. -/
def typeWord : Parser Unit := do
  guard (← dialect).hasTypes
  keyword (text "type") <|> keyword (text "typeof")

/-- What an import takes, and the name it gives it. -/
def specifierNames : Parser (List Node) :=
  (do
    let n ← exportName
    keyword (text "as")
    let a ← nameAs .identifier
    return [n.withRole .name, a.withRole .alias])
  <|> (do
    let n ← nameAs .identifier
    return [n.withRole .name])

/-- One name of an import clause. -/
def importSpecifier : Parser Node := do
  let start ← here
  let endsItem : Parser Unit := do guard ((← atSign ',') || (← atSign '\x7d'))
  (do
    typeWord
    let ns ← specifierNames
    endsItem
    node (.importSpecifier true) start ns)
  <|> (do
    let ns ← specifierNames
    endsItem
    node (.importSpecifier false) start ns)

/-- Names in braces. -/
def namedImports : Parser Node := do
  let start ← here
  sign '\x7b'
  let ss ← sepBy importSpecifier (sign ',')
  if !ss.isEmpty then
    let _ ← test (sign ',')
  sign '\x7d'
  node .namedImports start ss

/-- A star and a name for the whole module. -/
def namespaceImport : Parser Node := do
  let start ← here
  sign '*'
  keyword (text "as")
  let n ← nameAs .identifier
  node .namespaceImport start [n]

/-- What an import binds. -/
def importClause : Parser Node := do
  let start ← here
  (do
    let c ← namespaceImport <|> namedImports
    node .importClause start [c])
  <|> (do
    let n ← nameAs .identifier
    let more ← option? (do sign ','; namespaceImport <|> namedImports)
    node .importClause start (n :: more.toList))

/-- A name for a module that is loaded by a call. -/
def requireClause : Parser Node := do
  let start ← here
  guard (← dialect).hasTypes
  let n ← nameAs .identifier
  sign '='
  keyword (text "require")
  sign '('
  let s ← stringLiteral
  sign ')'
  node .clause start [n, s.withRole .source]

/-- What stands between the word `import` and the end of the statement. -/
def importBody (sub : Sub) : Parser (List Node) := do
  let body ← (do
      let c ← importClause
      let s ← fromClause
      return [c, s])
    <|> (do return [← requireClause])
    <|> (do return [(← stringLiteral).withRole .source])
  let attributes ← option? (importAttribute sub)
  plainEnd
  return body ++ attributes.toList

/-- An import statement. -/
def importStatement (sub : Sub) : Parser Node := do
  let start ← here
  keyword (text "import")
  (do
    typeWord
    let body ← importBody sub
    node (.importStatement true) start body)
  <|> (do
    let body ← importBody sub
    node (.importStatement false) start body)

/-- A dotted name. -/
def nestedName : Parser Node := do
  let start ← here
  let first ← nameAs .identifier
  let rest ← many (do sign '.'; wordAs .propertyIdentifier)
  if rest.isEmpty then return first
  else node .memberExpression start (first.withRole .object :: rest.map (·.withRole .property))

/-- A new name for a dotted name. -/
def importAlias : Parser Node := do
  let start ← here
  guard (← dialect).hasTypes
  keyword (text "import")
  let n ← nameAs .identifier
  sign '='
  let m ← nestedName
  plainEnd
  node .otherDeclaration start [n, m]

/-- One name of an export clause. -/
def exportSpecifier : Parser Node := do
  let start ← here
  let endsItem : Parser Unit := do guard ((← atSign ',') || (← atSign '\x7d'))
  let names : Parser (List Node) := do
    let n ← exportName
    let a ← option? (do keyword (text "as"); exportName)
    endsItem
    return n.withRole .name :: (a.map (·.withRole .alias)).toList
  let ns ← (do typeWord; names) <|> names
  node .clause start ns

/-- Exported names in braces. -/
def exportClause : Parser Node := do
  let start ← here
  sign '\x7b'
  let ss ← sepBy exportSpecifier (sign ',')
  if !ss.isEmpty then
    let _ ← test (sign ',')
  sign '\x7d'
  node .clause start ss

/-- What stands between the word `export` and the end of the statement, if it declares
nothing. -/
def exportBody (sub : Sub) : Parser (List Node) :=
  (do
    let start ← here
    sign '*'
    let n ← option? (do
      keyword (text "as")
      let n ← exportName
      node .clause start [n])
    let s ← fromClause
    let a ← option? (importAttribute sub)
    plainEnd
    return n.toList ++ [s] ++ a.toList)
  <|> (do
    let _ ← test (do
      guard (← dialect).hasTypes
      keyword (text "type")
      guard (← atSign '\x7b'))
    let c ← exportClause
    let s ← option? fromClause
    let a ← option? (importAttribute sub)
    plainEnd
    return c :: s.toList ++ a.toList)
  <|> (do
    guard (← dialect).hasTypes
    sign '='
    let e ← sub.expressionIn .final
    expressionEnd
    return [e])
  <|> (do
    guard (← dialect).hasTypes
    keyword (text "as")
    keyword (text "namespace")
    let n ← nameAs .identifier
    plainEnd
    return [n])
  <|> (do return [← importAlias])

end KeyTrace.Grammar
