/-
What a parser may be asked for inside another: the goals of the grammar. Every
rule of the grammar takes the parser of goals as an argument, so no rule calls
itself; the recursion is tied once, with the depth as its measure.
-/
import KeyTrace.Grammar.Lexeme

namespace KeyTrace.Grammar

/-- Where an expression stands. -/
structure Context where
  /-- The end of the expression may be the end of a statement without a semicolon. -/
  ends : Bool
  /-- The word `in` belongs to the head of a loop. -/
  noIn : Bool
  /-- A colon after parameters belongs to a conditional. -/
  noReturnType : Bool
  /-- A brace after the expression opens the body of a class. -/
  heritage : Bool

namespace Context

/-- Between brackets. -/
def inner : Context := ⟨false, false, false, false⟩

/-- At the end of a statement. -/
def final : Context := ⟨true, false, false, false⟩

/-- After `extends`. -/
def extending : Context := ⟨false, false, false, true⟩

end Context

/-- How tightly operators bind. -/
abbrev Level := Nat

/-- The level of operands that take no operator between two of them. -/
def unaryLevel : Level := 13

/-- What a rule may ask for. -/
inductive Goal where
  /-- An expression of operators that bind at least as tightly as `level`; `assertions` lets a
  type assertion follow its end. -/
  | operation (ctx : Context) (level : Level) (assertions : Bool)
  | statement
  /-- Statements between braces; `inExpression` if they are the body of an expression. -/
  | block (inExpression : Bool)
  | type
  /-- A pattern, in which members of objects may stand if `members` is set. -/
  | pattern (members : Bool)
  | jsxElement

/-- The parser of goals. -/
abbrev Sub := Goal → Parser Node

namespace Sub

/-- An expression without commas at its top. -/
def expressionIn (sub : Sub) (ctx : Context) : Parser Node := sub (.operation ctx 0 true)

/-- An expression between brackets, without commas at its top. -/
def expression (sub : Sub) : Parser Node := sub.expressionIn .inner

end Sub

open KeyTrace.Grammar.Parser

/-- An expression that commas may divide. -/
def expressions (sub : Sub) (ctx : Context) : Parser Node := do
  let start ← here
  let first ← sub.expressionIn ctx
  let rest ← many (do sign ','; sub.expressionIn ctx)
  if rest.isEmpty then return first else node .sequenceExpression start (first :: rest)

/-- Elements between commas, any of which may be missing. -/
def elements (p : Parser Node) : Parser (List Node) := do
  let first ← option? p
  let rest ← many (do sign ','; option? p)
  return (first :: rest).filterMap id

/-- Words with a meaning of their own at the start of an expression. -/
def expressionWords : List Text :=
  ["this", "super", "null", "true", "false", "function", "class", "new", "typeof", "void",
    "delete", "await", "yield", "import"].map text

/-- Words that no name may have where types are not part of the language. -/
def reservedWords : List Text :=
  ["break", "case", "catch", "class", "const", "continue", "debugger", "default", "delete", "do",
    "else", "export", "extends", "false", "finally", "for", "function", "if", "import", "in",
    "instanceof", "new", "null", "return", "super", "switch", "this", "throw", "true", "try",
    "typeof", "var", "void", "while", "with"].map text

/-- A word that may be a name, whatever else it may mean elsewhere. -/
def name : Parser Text := do
  let w ← word
  guard ((← dialect).hasTypes || !reservedWords.contains w)
  return w

/-- A name as a leaf of the tree. -/
def nameAs (kind : Kind) : Parser Node := do
  let start ← here
  let _ ← name
  node kind start []

/-- A word of any spelling as a leaf of the tree. -/
def wordAs (kind : Kind) : Parser Node := do
  let start ← here
  let _ ← word
  node kind start []

/-- A word as a leaf of the tree, if it is `t`. -/
def keywordAs (t : Text) (kind : Kind) : Parser Node := do
  let start ← here
  keyword t
  node kind start []

/-- A private name. -/
def privateName : Parser Node := do
  let start ← here
  symbolRaw (text "#")
  let _ ← word
  node .privatePropertyIdentifier start []

/-- One of several words. -/
def oneOf (ts : List Text) : Parser Text := do
  let w ← word
  guard (ts.contains w)
  return w

/-- The next token is on the line of the last one. -/
def sameLine : Parser Bool := fun i c =>
  some (!(i.range c.last c.pos).any fun a => a == 10 || a == 13 || a == 0x2028 || a == 0x2029, c)

end KeyTrace.Grammar
