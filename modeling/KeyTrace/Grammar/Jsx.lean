/-
JSX elements. Inside an element blanks are text, so an element leaves the
cursor right behind its last character.
-/
import KeyTrace.Grammar.Signatures

namespace KeyTrace.Grammar

open KeyTrace.Grammar.Parser

/-- A word of JSX, in which dashes may stand. -/
def jsxWord (kind : Kind) : Parser Node := do
  let start ← here
  let stop ← fun i c => (i.wordEnd? c.pos).map fun e =>
    (i.skipWhile (fun a => isWordPart a || a == 45) e, c)
  advance stop
  node kind start []

/-- The name of an element. -/
def jsxName : Parser Node := do
  let start ← here
  let first ← jsxWord .identifier
  if ← test (sign ':') then
    let second ← jsxWord .identifier
    node .jsxSyntax start [first, second]
  else
    let rest ← many (do sign '.'; wordAs .propertyIdentifier)
    if rest.isEmpty then return first
    else node .memberExpression start (first.withRole .object :: rest.map (·.withRole .property))

/-- The end of the text of an attribute, in which an ampersand may only open a character
reference if a letter or a number sign follows it. -/
def jsxStringEnd? (i : Input) (quote : CodePoint) : (n : Nat) → (p : Nat) → Option Nat
  | 0, _ => none
  | n + 1, p =>
    let c := i.char p
    if c == quote then some p
    else if c == endMark || c == 0 then none
    else if c == 38 && (i.char (p + 1) == 35 || isLetter (i.char (p + 1))) then
      match i.referenceEnd? p with
      | some e => jsxStringEnd? i quote n e
      | none => none
    else jsxStringEnd? i quote n (p + 1)

/-- The text of an attribute. -/
def jsxString : Parser Node := do
  let start ← here
  let quote ← peek 0
  guard (quote == 34 || quote == 39)
  let close ← fun i c =>
    (jsxStringEnd? i quote (i.chars.size + 1 - c.pos) (c.pos + 1)).map fun e => (e, c)
  advance (close + 1)
  node .string start []

/-- What stands between braces in an element. The cursor is left behind the brace. -/
def jsxExpression (sub : Sub) : Parser Node := do
  let start ← here
  sign '\x7b'
  let e ← option? (do
    let start ← here
    if ← test (symbol (text "...")) then
      let e ← sub.expression
      node .spreadElement start [e]
    else expressions sub .inner)
  symbolRaw (text "\x7d")
  node .jsxSyntax start e.toList

/-- An attribute. -/
def jsxAttribute (sub : Sub) : Parser Node :=
  (do let e ← jsxExpression sub; settle; return e) <|> (do
    let start ← here
    let n ← jsxWord .propertyIdentifier
    let second ← option? (do sign ':'; jsxWord .propertyIdentifier)
    let v ← option? (do
      sign '='
      jsxString <|> (do
        let v ← jsxExpression sub <|> sub .jsxElement
        settle
        return v))
    node .jsxSyntax start (n :: second.toList ++ v.toList))

/-- Text between elements. -/
def jsxText : Parser Node := do
  let start ← here
  let stop ← fun i c =>
    ((i.jsxTextEnd? (i.chars.size + 1 - c.pos) c.pos false false) <|> i.referenceEnd? c.pos).map
      fun e => (e, c)
  advanceRaw stop
  node .jsxSyntax start []

/-- Line breaks and indentation between elements. -/
def jsxBlank : Parser Unit := fun i c =>
  let p := i.skipWhile isBlank c.pos
  some ((), { c with pos := p })

/-- One thing inside an element. -/
def jsxChild (sub : Sub) : Parser Node :=
  jsxText <|> (do
    jsxBlank
    let c ← peek 0
    if c == 123 then jsxExpression sub
    else if c == 60 && (← peek 1) != 47 then sub .jsxElement
    else fail)

/-- A closing tag. -/
def jsxClosing : Parser Node := do
  jsxBlank
  let start ← here
  symbol (text "</")
  let n ← option? jsxName
  symbolRaw (text ">")
  node .jsxSyntax start n.toList

/-- An element. -/
def jsxElement (sub : Sub) : Parser Node := do
  let start ← here
  sign '<'
  let heading ← option? (do
    let n ← jsxName
    let ts ← option? (do guard (← dialect).hasTypes; typeArguments sub)
    let attrs ← many (jsxAttribute sub)
    return n :: ts.toList ++ attrs)
  let empty ← if heading.isSome then test (symbolRaw (text "/>")) else pure false
  if empty then
    node .jsxSyntax start (heading.getD [])
  else
    symbolRaw (text ">")
    let opening ← node .jsxSyntax start (heading.getD [])
    let inside ← many (jsxChild sub)
    let closing ← jsxClosing
    node .jsxSyntax start (opening :: inside ++ [closing])

end KeyTrace.Grammar
