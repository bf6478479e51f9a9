/-
The values of the literals of a program: quoted strings, and templates as cooked
text between substitutions.
-/
import KeyTrace.Literal.Cook
import KeyTrace.Syntax.Shape

namespace KeyTrace.Literal

/-- The value of a quoted string. -/
def stringValue (source : Source) (n : Node) : Except InvalidEscape Text :=
  cook ((n.text source).drop 1).dropLast

/-- A template taken apart: cooked text, and the expression in each substitution; there is one
text more than there are substitutions. -/
structure Template where
  first : Text
  rest : List (Option Node × Text)
deriving Repr

namespace Template

/-- The stretches of text. -/
def quasis (t : Template) : List Text := t.first :: t.rest.map (·.2)

/-- The expressions between them. -/
def expressions (t : Template) : List (Option Node) := t.rest.map (·.1)

/-- Takes apart what follows a substitution: the cursor stands behind it, `stop` is the
closing backtick. -/
def partsFrom (source : Source) (stop : Nat) (cursor : Nat) :
    List Node → Except InvalidEscape (Text × List (Option Node × Text))
  | [] => do return (← cookTemplate (source.slice ⟨cursor, stop⟩), [])
  | c :: cs =>
    if c.kind = .templateSubstitution then do
      let text ← cookTemplate (source.slice ⟨cursor, c.span.start⟩)
      let (next, rest) ← partsFrom source stop c.span.stop cs
      return (text, (c.firstChild?, next) :: rest)
    else partsFrom source stop cursor cs

/-- The parts of a template literal. -/
def ofNode (source : Source) (n : Node) : Except InvalidEscape Template := do
  let (first, rest) ← partsFrom source (n.span.stop - 1) (n.span.start + 1) n.allChildren
  return ⟨first, rest⟩

end Template
end KeyTrace.Literal
