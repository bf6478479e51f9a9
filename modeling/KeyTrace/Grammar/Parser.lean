/-
Backtracking parsers over the characters of a program.

A cursor stands behind the last token read and in front of the next one, and
keeps the comments it has passed. A parser either fails or moves the cursor;
`orElse` takes the first of two parsers that succeeds. Repetition stops where a
round reads nothing, so it is bounded by the length of the program.
-/
import KeyTrace.Syntax.Node

namespace KeyTrace.Grammar

/-- The grammars a program can be written in. `tsx` has types and JSX, `typescript` has types and
angle-bracket assertions, `javascript` has JSX. -/
inductive Dialect where
  | tsx | typescript | javascript
deriving DecidableEq, Repr

namespace Dialect

def hasTypes (d : Dialect) : Bool := d != .javascript

def hasJsx (d : Dialect) : Bool := d != .typescript

def name : Dialect → Text
  | .tsx => text "tsx"
  | .typescript => text "typescript"
  | .javascript => text "javascript"

/-- The dialect of a name. -/
def ofName? (n : Text) : Option Dialect :=
  [tsx, typescript, javascript].find? fun d => d.name == n

end Dialect

/-- Stands for a byte that belongs to no character. -/
def brokenByte : CodePoint := 0x110000

/-- What is read past the end. -/
def endMark : CodePoint := 0x110001

/-- A program as it is parsed. -/
structure Input where
  dialect : Dialect
  chars : Array CodePoint

namespace Input

/-- The character at a position, or the end mark. -/
def char (i : Input) (p : Nat) : CodePoint := i.chars.getD p endMark

/-- The characters of a range. -/
def range (i : Input) (start stop : Nat) : Text := (i.chars.extract start stop).toList

/-- The text `t` stands at position `p`. -/
def reads (i : Input) : (t : Text) → (p : Nat) → Bool
  | [], _ => true
  | c :: t, p => i.char p == c && reads i t (p + 1)

end Input

/-- Where a parser stands: the end of the last token, the start of the next, and the comments
passed, the latest first. -/
structure Cursor where
  last : Nat
  pos : Nat
  comments : List Node

/-- A parser of an `α`. -/
def Parser (α : Type) : Type := Input → Cursor → Option (α × Cursor)

namespace Parser

variable {α β : Type}

@[inline] protected def pure (a : α) : Parser α := fun _ c => some (a, c)

@[inline] protected def bind (p : Parser α) (f : α → Parser β) : Parser β := fun i c =>
  match p i c with
  | none => none
  | some (a, c') => f a i c'

instance : Monad Parser where
  pure := Parser.pure
  bind := Parser.bind

@[inline] def fail : Parser α := fun _ _ => none

@[inline] protected def orElse (p : Parser α) (q : Unit → Parser α) : Parser α := fun i c =>
  match p i c with
  | some r => some r
  | none => q () i c

instance : OrElse (Parser α) where
  orElse := Parser.orElse

/-- Fails unless the condition holds. -/
@[inline] def guard (b : Bool) : Parser Unit := if b then pure () else fail

/-- Never fails: nothing is read where `p` would. -/
@[inline] def option? (p : Parser α) : Parser (Option α) := fun i c =>
  match p i c with
  | some (a, c') => some (some a, c')
  | none => some (none, c)

/-- Whether `p` succeeds; if so its tokens are read. -/
@[inline] def test (p : Parser α) : Parser Bool := fun i c =>
  match p i c with
  | some (_, c') => some (true, c')
  | none => some (false, c)

/-- Whether `p` would succeed. Nothing is read. -/
@[inline] def ahead (p : Parser α) : Parser Bool := fun i c => some ((p i c).isSome, c)

/-- The rounds of `many`, at most `n`, in front of which `acc` has been read. -/
def manyFrom (p : Parser α) : (n : Nat) → (acc : List α) → Parser (List α)
  | 0, acc => fun _ c => some (acc.reverse, c)
  | n + 1, acc => fun i c =>
    match p i c with
    | none => some (acc.reverse, c)
    | some (a, c') =>
      if c'.pos ≤ c.pos then some (acc.reverse, c) else manyFrom p n (a :: acc) i c'

/-- As often as `p` succeeds and reads something. -/
@[inline] def many (p : Parser α) : Parser (List α) := fun i c =>
  manyFrom p (i.chars.size + 1) [] i c

/-- One round of `p`, then any number with a separator in front. -/
@[inline] def sepBy1 (p : Parser α) (sep : Parser β) : Parser (List α) := do
  let first ← p
  let rest ← many (do let _ ← sep; p)
  return first :: rest

@[inline] def sepBy (p : Parser α) (sep : Parser β) : Parser (List α) := do
  return (← option? (sepBy1 p sep)).getD []

/-- The dialect being parsed. -/
@[inline] def dialect : Parser Dialect := fun i c => some (i.dialect, c)

/-- The start of the next token. -/
@[inline] def here : Parser Nat := fun _ c => some (c.pos, c)

/-- The character `k` places past the start of the next token. -/
@[inline] def peek (k : Nat) : Parser CodePoint := fun i c => some (i.char (c.pos + k), c)

/-- A node from `start` to the end of the last token. -/
@[inline] def node (kind : Kind) (start : Nat) (children : List Node) : Parser Node := fun _ c =>
  some (.mk .none kind ⟨start, c.last⟩ children, c)

end Parser
end KeyTrace.Grammar
