/-
Literals: strings, templates, regular expressions and numbers, and the names of
properties, which may be literals too.
-/
import KeyTrace.Grammar.Goal

namespace KeyTrace.Grammar

open KeyTrace.Grammar.Parser

/-- A quoted string. -/
def stringLiteral : Parser Node := do
  let start ← here
  let quote ← peek 0
  guard (quote == 34 || quote == 39)
  let (parts, close) ← fun i c =>
    (i.stringParts? quote (i.chars.size + 1 - c.pos) (c.pos + 1)).map fun r => (r, c)
  advance (close + 1)
  node .string start parts

/-- A number. -/
def numberLiteral : Parser Node := do
  let start ← here
  let stop ← fun i c => (i.numberEnd? c.pos).map fun e => (e, c)
  advance stop
  node .otherLiteral start []

/-- A regular expression with its flags. -/
def regexLiteral : Parser Node := do
  let start ← here
  symbolRaw (text "/")
  let open' ← here
  let close ← fun i c => (i.regexEnd? (i.chars.size + 1 - c.pos) c.pos).map fun e => (e, c)
  guard (open' < close)
  let stop ← fun i c => some (i.skipWhile isLowerLetter (close + 1), c)
  advance stop
  node .otherLiteral start []

/-- The part of a template at the cursor, other than a substitution. -/
def templateText : Parser Node := do
  let start ← here
  let c ← peek 0
  let stop ← fun i cur =>
    (if c == 92 then i.escapeEnd? cur.pos
      else i.templateTextEnd? (i.chars.size + 1 - cur.pos) cur.pos).map fun e => (e, cur)
  guard (start < stop)
  advanceRaw stop
  node (if c == 92 then .escapeSequence else .stringFragment) start []

/-- An expression in a template. -/
def templateSubstitution (sub : Sub) : Parser Node := do
  let start ← here
  symbol (text "$\x7b")
  let e ← expressions sub .inner
  symbolRaw (text "\x7d")
  node .templateSubstitution start [e]

/-- A template literal. -/
def templateLiteral (sub : Sub) : Parser Node := do
  let start ← here
  symbolRaw [96]
  let parts ← many (templateSubstitution sub <|> templateText)
  symbol [96]
  node .templateString start parts

/-- A property name that is computed. -/
def computedName (sub : Sub) : Parser Node := do
  let start ← here
  sign '['
  let e ← sub.expression
  sign ']'
  node .clause start [e]

/-- The name of a property or member. -/
def propertyName (sub : Sub) : Parser Node := do
  let c ← peek 0
  if c == 34 || c == 39 then stringLiteral
  else if c == 35 then privateName
  else if c == 91 then computedName sub
  else if isDigit c || c == 46 then numberLiteral
  else wordAs .propertyIdentifier

/-- The next token can be the name of a property. -/
def atPropertyName : Parser Bool := do
  let c ← peek 0
  return isWordStart c || isDigit c || c == 34 || c == 39 || c == 91 || c == 35 || c == 92

/-- The words among `ts` that stand in front of a property name, and the star of a generator. -/
def modifiers (ts : List Text) : Parser (List Text) :=
  many (do
    let w ← oneOf ts
    guard ((← atPropertyName) || (← atSign '*'))
    return w)

end KeyTrace.Grammar
