/-
Expressions: operands, the members, calls and updates after them, assignments,
and the operators between operands, read by precedence climbing.

A type assertion (`as`, `satisfies`, `!`) binds more loosely than an operator
that associates to the left, and goes with the last operand of everything else.
-/
import KeyTrace.Grammar.Functions
import KeyTrace.Grammar.Jsx

namespace KeyTrace.Grammar

open KeyTrace.Grammar.Parser

/-- The statement that the expression may be the end of ends here. -/
def endsHere (ctx : Context) : Parser Bool := do
  if ctx.ends then mayEnd ⟨true, false⟩ else return false

/-- An expression between parentheses. -/
def parenthesized (sub : Sub) : Parser Node := do
  let start ← here
  sign '('
  let e ← expressions sub .inner
  let t ← option? (do
    guard ((← dialect).hasTypes && e.kind != .sequenceExpression)
    typeMark sub)
  sign ')'
  node .parenthesizedExpression start (e :: t.toList)

/-- Operators of assignment other than the plain one. -/
def augmentedOperators : List Text :=
  [">>>=", "**=", "<<=", ">>=", "&&=", "||=", "??=", "+=", "-=", "*=", "/=", "%=", "&=", "^=",
    "|="].map text

/-- The first of several symbols that stands here. -/
def firstSymbol : List Text → Parser Unit
  | [] => fail
  | t :: ts => symbol t <|> firstSymbol ts

/-- The kinds of expression that an assignment with an operator may change. -/
def isAugmentable : Kind → Bool
  | .identifier | .memberExpression | .subscriptExpression | .nonNullExpression
  | .parenthesizedExpression => true
  | _ => false

/-- An assignment to the operand, if one follows. -/
def assignmentTail (sub : Sub) (ctx : Context) (start : Nat) (left : Node) : Parser Node := do
  let c ← peek 0
  let d ← peek 1
  if c == 61 && d != 61 && d != 62
      && (isTarget left.kind || left.kind == .parenthesizedExpression) then
    sign '='
    let right ← sub.expressionIn ctx
    node .otherExpression start [left.withRole .left, right.withRole .right]
  else if !isAugmentable left.kind then return left
  else if ← test (firstSymbol augmentedOperators) then
    let right ← sub.expressionIn ctx
    node .otherExpression start [left.withRole .left, right.withRole .right]
  else return left

/-- After the types a generic is applied to: what follows cannot start an operand. -/
def endsInstantiation (ctx : Context) : Parser Bool := do
  if ← endsHere ctx then return true
  let c ← peek 0
  if isWordStart c then
    let w ← peekWord
    return ["as", "satisfies", "in", "instanceof", "of"].map text |>.contains w
  else
    return !(isDigit c || c == 40 || c == 91 || c == 123 || c == 96 || c == 34 || c == 39
      || c == 45 || c == 43 || c == 33 || c == 126 || c == 60 || c == 62 || c == 47 || c == 64
      || c == 35 || c == 92)

/-- The types a generic is applied to, in front of arguments or at the end of an expression. -/
def appliedTypes (sub : Sub) (ctx : Context) : Parser Node := do
  guard (← dialect).hasTypes
  let ts ← typeArguments sub
  guard ((← atSign '(') || (!ctx.heritage && (← endsInstantiation ctx)))
  return ts

/-- One step after an operand: a member, subscript, call or update; none if nothing follows. -/
def postfixStep (sub : Sub) (ctx : Context) (calls : Bool) (start : Nat) (f : Node) :
    Parser (Option Node) := do
  if ← endsHere ctx then return none
  let c ← peek 0
  let d ← peek 1
  if c == 46 && d != 46 then
    sign '.'
    let p ← privateName <|> wordAs .propertyIdentifier
    let n ← node .memberExpression start [f.withRole .object, p.withRole .property]
    return some n
  else if c == 63 && d == 46 && !isDigit (← peek 2) then
    symbol (text "?.")
    let e ← peek 0
    if e == 40 || e == 60 then
      guard calls
      let ts ← option? (do guard (← dialect).hasTypes; typeArguments sub)
      let args ← arguments sub
      let n ← node .callExpression start
        (f.withRole .function :: ts.toList ++ [args.withRole .arguments])
      return some n
    else if e == 91 then
      sign '['
      let k ← expressions sub .inner
      sign ']'
      let n ← node .subscriptExpression start [f.withRole .object, k.withRole .index]
      return some n
    else
      let p ← privateName <|> wordAs .propertyIdentifier
      let n ← node .memberExpression start [f.withRole .object, p.withRole .property]
      return some n
  else if c == 91 then
    sign '['
    let k ← expressions sub .inner
    sign ']'
    let n ← node .subscriptExpression start [f.withRole .object, k.withRole .index]
    return some n
  else if c == 96 then
    let t ← templateLiteral sub
    let n ← node .callExpression start [f.withRole .function, t.withRole .arguments]
    return some n
  else if c == 40 && calls then
    let args ← arguments sub
    let n ← node .callExpression start [f.withRole .function, args.withRole .arguments]
    return some n
  else if c == 60 && d != 60 && d != 61 && calls then
    match ← option? (appliedTypes sub ctx) with
    | none => return none
    | some ts =>
      if ← atSign '(' then
        let args ← arguments sub
        let n ← node .callExpression start
          [f.withRole .function, ts, args.withRole .arguments]
        return some n
      else
        let n ← node .otherExpression start [f, ts]
        return some n
  else if calls && ((c == 43 && d == 43) || (c == 45 && d == 45)) then
    symbol (text "++") <|> symbol (text "--")
    let n ← node .otherExpression start [f]
    return some n
  else return none

/-- All steps after an operand. Without `calls` arguments are left alone. -/
def postfixes (sub : Sub) (ctx : Context) (calls : Bool) (start : Nat) :
    (n : Nat) → Node → Parser Node
  | 0, left => return left
  | n + 1, left => do
    match ← postfixStep sub ctx calls start left with
    | none => return left
    | some next => postfixes sub ctx calls start n next

/-- All steps after an operand, as many as there are characters. -/
def allPostfixes (sub : Sub) (ctx : Context) (calls : Bool) (start : Nat) (left : Node) :
    Parser Node := fun i => postfixes sub ctx calls start (i.chars.size + 1) left i

/-- A literal pattern that is assigned to. -/
def patternTarget (sub : Sub) : Parser Node := do
  let p ← destructuring sub true
  guard ((← peek 0) == 61 && (← peek 1) != 61 && (← peek 1) != 62)
  return p

/-- An operand that starts with a bracket: a literal, or a pattern if it is assigned to. -/
def bracketed (sub : Sub) (literal : Parser Node) : Parser Node :=
  (do
    let e ← literal
    guard !((← peek 0) == 61 && (← peek 1) != 61 && (← peek 1) != 62)
    return e) <|> patternTarget sub

mutual

/-- `new` and what is constructed. The steps of `fuel` bound how often `new` is repeated. -/
def newExpression (sub : Sub) : (fuel : Nat) → Parser Node
  | 0 => fail
  | fuel + 1 => do
    let start ← here
    keyword (text "new")
    if ← test (do sign '.'; keyword (text "target")) then node .otherExpression start []
    else
      let inner ← here
      let first ← primary sub .inner fuel
      let c ← allPostfixes sub .inner false inner first
      let ts ← option? (do
        guard (← dialect).hasTypes
        let ts ← typeArguments sub
        guard ((← atSign '(') || (← endsInstantiation .final))
        return ts)
      let args ← option? (arguments sub)
      node .otherExpression start (c.withRole .constructor :: ts.toList ++
        (args.map (·.withRole .arguments)).toList)

/-- An operand before anything that may follow it. -/
def primary (sub : Sub) (ctx : Context) : (fuel : Nat) → Parser Node
  | 0 => fail
  | fuel + 1 => do
    let start ← here
    let c ← peek 0
    let types := (← dialect).hasTypes
    if c == 34 || c == 39 then stringLiteral
    else if c == 96 then templateLiteral sub
    else if c == 40 then arrowFunction sub ctx <|> parenthesized sub
    else if c == 91 then bracketed sub (arrayLiteral sub)
    else if c == 123 then bracketed sub (objectLiteral sub)
    else if c == 47 then regexLiteral
    else if isDigit c || (c == 46 && isDigit (← peek 1)) then numberLiteral
    else if c == 64 then classExpression sub
    else if c == 35 then
      let n ← privateName
      guard (← atKeyword (text "in"))
      return n
    else if c == 60 then
      (do guard types; arrowFunction sub ctx)
      <|> (do
        guard (← dialect).hasJsx
        let e ← sub .jsxElement
        settle
        return e)
      <|> (do
        guard !(← dialect).hasJsx
        let t ← typeArguments sub
        let e ← sub (.operation ctx unaryLevel false)
        node .typeAssertion start [t, e])
    else
      let w ← peekWord
      if w == text "function" then functionExpression sub
      else if w == text "class" then classExpression sub
      else if w == text "new" then newExpression sub fuel
      else if w == text "this" || w == text "super" || w == text "null" || w == text "true"
          || w == text "false" then
        wordAs .otherLiteral
      else if w == text "import" then
        let n ← wordAs .otherExpression
        guard ((← atSign '(') || (← atSign '.'))
        return n
      else if w == text "async" then
        let isFunction ← ahead (do
          keyword (text "async")
          guard (!(← endsHere ctx) && (← atKeyword (text "function"))))
        if isFunction then functionExpression sub else arrowFunction sub ctx <|> nameLeaf
      else if w == text "using" && types then
        (do
          keyword (text "using")
          guard (isWordStart (← peek 0) && !(← endsHere ctx))
          let inner ← here
          let n ← nameLeaf
          let o ← allPostfixes sub ctx true inner n
          guard (isTarget o.kind)
          sign '='
          let right ← sub.expressionIn ctx
          node .otherExpression start [o.withRole .left, right.withRole .right])
        <|> arrowFunction sub ctx <|> nameLeaf
      else arrowFunction sub ctx <|> nameLeaf

end

/-- Operators in front of an operand, as words. -/
def unaryWords : List Text := ["typeof", "void", "delete"].map text

/-- An operand with everything in front of it and after it, and an assignment to it. -/
def operand (sub : Sub) (ctx : Context) : Parser Node := do
  let start ← here
  let c ← peek 0
  let d ← peek 1
  if (c == 43 && d == 43) || (c == 45 && d == 45) then
    symbol (text "++") <|> symbol (text "--")
    let e ← sub (.operation ctx unaryLevel false)
    node .otherExpression start [e]
  else if c == 33 || c == 126 || c == 43 || c == 45 then
    symbol [c]
    let e ← sub (.operation ctx unaryLevel false)
    node .otherExpression start [e]
  else
    let w ← peekWord
    if unaryWords.contains w then
      let _ ← word
      let e ← sub (.operation ctx unaryLevel false)
      node .otherExpression start [e]
    else if w == text "await" then
      let _ ← word
      let e ← sub (.operation ctx unaryLevel true)
      node .awaitExpression start [e]
    else if w == text "yield" then
      let _ ← word
      if ← endsHere ctx then node .otherExpression start []
      else
        let star ← test (sign '*')
        match ← option? (sub.expressionIn ctx) with
        | some e => node .otherExpression start [e]
        | none =>
          guard (!star)
          node .otherExpression start []
    else
      let first ← fun i => primary sub ctx (i.chars.size + 1) i
      let all ← allPostfixes sub ctx true start first
      if ← endsHere ctx then return all else assignmentTail sub ctx start all

/-- The operator that some characters and the word they open spell, with its level. -/
def operatorOf? (noIn : Bool) (c d e f : CodePoint) (w : Text) :
    Option (BinaryOperator × Text × Level) :=
  let pick (assigns : Bool) (op : BinaryOperator) (t : String) (l : Level) :
      Option (BinaryOperator × Text × Level) := if assigns then none else some (op, text t, l)
  if c == 43 then pick (d == 61 || d == 43) .plus "+" 10
  else if c == 45 then pick (d == 61 || d == 45) .minus "-" 10
  else if c == 42 then
    if d == 42 then pick (e == 61) .power "**" 12 else pick (d == 61) .times "*" 11
  else if c == 47 then pick (d == 61) .divide "/" 11
  else if c == 37 then pick (d == 61) .remainder "%" 11
  else if c == 60 then
    if d == 60 then pick (e == 61) .shiftLeft "<<" 9
    else if d == 61 then some (.lessEqual, text "<=", 8)
    else some (.less, text "<", 8)
  else if c == 62 then
    if d == 62 then
      if e == 62 then pick (f == 61) .shiftRightUnsigned ">>>" 9
      else pick (e == 61) .shiftRight ">>" 9
    else if d == 61 then some (.greaterEqual, text ">=", 8)
    else some (.greater, text ">", 8)
  else if c == 61 then
    if d == 61 then
      if e == 61 then some (.strictEqual, text "===", 7) else some (.equal, text "==", 7)
    else none
  else if c == 33 then
    if d == 61 then
      if e == 61 then some (.strictNotEqual, text "!==", 7) else some (.notEqual, text "!=", 7)
    else none
  else if c == 38 then
    if d == 38 then pick (e == 61) .logicalAnd "&&" 3 else pick (d == 61) .bitAnd "&" 6
  else if c == 124 then
    if d == 124 then pick (e == 61) .logicalOr "||" 2 else pick (d == 61) .bitOr "|" 4
  else if c == 94 then pick (d == 61) .bitXor "^" 5
  else if c == 63 && d == 63 then pick (e == 61) .nullish "??" 1
  else if c == cp 'i' then
    if w == text "in" then pick noIn .isIn "in" 8
    else if w == text "instanceof" then some (.instanceOf, text "instanceof", 8)
    else none
  else none

/-- The operator at the cursor, with its spelling and level. -/
def operatorHere (ctx : Context) : Parser (Option (BinaryOperator × Text × Level)) := do
  let c ← peek 0
  let w ← if c == cp 'i' then peekWord else pure []
  return operatorOf? ctx.noIn c (← peek 1) (← peek 2) (← peek 3) w

/-- The rest of a conditional expression, whose colon may have been taken for one after
parameters. -/
def conditionalTail (sub : Sub) (ctx : Context) : Parser (Node × Node) := do
  sign '?'
  let yes ← (do
    let e ← sub.expression
    sign ':'
    return e) <|> (do
    let e ← sub.expressionIn { Context.inner with noReturnType := true }
    sign ':'
    return e)
  let no ← sub.expressionIn ctx
  return (yes, no)

/-- What follows an operand: an operator and its right side, a conditional, or an assertion. -/
def operationStep (sub : Sub) (ctx : Context) (level : Level) (assertions : Bool) (start : Nat)
    (left : Node) : Parser (Option Node) := do
  if ← endsHere ctx then return none
  match ← operatorHere ctx with
  | some (op, t, l) =>
    if l < level then return none
    else
      symbol t
      let right ← if op == .power then sub (.operation ctx l true)
        else sub (.operation ctx (l + 1) false)
      return some (← node (.binaryExpression op) start
        [left.withRole .left, right.withRole .right])
  | none =>
    let c ← peek 0
    if c == 63 then
      if 1 < level || !(← fun i cur => some (i.opensConditional cur.pos, cur)) then return none
      else
        let (yes, no) ← conditionalTail sub ctx
        return some (← node .otherExpression start [left, yes, no])
    else if assertions && (← dialect).hasTypes then
      if c == 33 then
        sign '!'
        let n ← node .nonNullExpression start [left]
        let all ← allPostfixes sub ctx true start n
        if ← endsHere ctx then return some all
        return some (← assignmentTail sub ctx start all)
      else
        let w ← peekWord
        if w == text "as" || w == text "satisfies" then
          let _ ← word
          let kind : Kind := if w == text "as" then .asExpression else .satisfiesExpression
          let constant ← if w == text "as" then test (keyword (text "const")) else pure false
          let t ← if constant then pure [] else (do return [← sub .type])
          let n ← node kind start (left :: t)
          return some (← allPostfixes sub ctx true start n)
        else return none
    else return none

/-- Everything that follows an operand. -/
def operationSteps (sub : Sub) (ctx : Context) (level : Level) (assertions : Bool) (start : Nat) :
    (n : Nat) → Node → Parser Node
  | 0, left => return left
  | n + 1, left => do
    match ← operationStep sub ctx level assertions start left with
    | none => return left
    | some next => operationSteps sub ctx level assertions start n next

/-- An expression of operators that bind at least as tightly as `level`. -/
def operation (sub : Sub) (ctx : Context) (level : Level) (assertions : Bool) : Parser Node := do
  let start ← here
  let first ← operand sub ctx
  fun i => operationSteps sub ctx level assertions start (i.chars.size + 1) first i

end KeyTrace.Grammar
