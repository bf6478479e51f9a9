/-
Reading a text as a program: grammars are tried in order, and a tree counts only
if every escape in its literals denotes a code point.
-/
import KeyTrace.Analysis.Traced
import KeyTrace.Grammar.Parse
import KeyTrace.Syntax.Shape

namespace KeyTrace

/-- A program as it is handed in: text, or the bytes of a file. -/
inductive Document where
  | text (t : Text)
  | bytes (b : List UInt8)

/-- The bytes of a document; text with a surrogate has none. -/
def Document.source? : Document → Option Source
  | .text t => Source.ofText? t
  | .bytes b => some ⟨b.toArray⟩

/-- The braced escape past the last code point that makes up the whole of a text. -/
def isOutOfRange (escape : Text) : Bool :=
  match escape with
  | 92 :: 117 :: r =>
    match Literal.bracedDigits? r with
    | some ds => r.length == ds.length + 2 && ofDigits 16 ds > maxCodePoint
    | none => false
  | _ => false

/-- No literal of the program escapes a code point that does not exist. -/
def Program.escapesValid (p : Program) : Bool :=
  p.root.preorder.all fun n =>
    !(n.kind == .escapeSequence && isOutOfRange (n.text p.source))

namespace Program

/-- Reads a source in one grammar. -/
def parse? (d : Grammar.Dialect) (source : Source) : Option Program :=
  match Grammar.parse d source with
  | some root =>
    let p : Program := ⟨source, root⟩
    if p.escapesValid then some p else none
  | none => none

/-- Tries the grammars of a list in order. -/
def tryGrammars (doc : Document) : List Text → Traced (Option Program)
  | [] => return none
  | g :: gs => do
    match Grammar.Dialect.ofName? g with
    | none => Traced.fail (.unsupportedLanguage g)
    | some d =>
      match doc.source? with
      | none =>
        Traced.tell .unencodable
        tryGrammars doc gs
      | some source =>
        match parse? d source with
        | some p => return some p
        | none => tryGrammars doc gs

/-- The grammars of a file of unknown dialect. The first takes JSX and nearly all types; the
second alone has angle-bracket assertions. -/
def defaultGrammars : List Text :=
  [Grammar.Dialect.tsx, .typescript, .javascript].map Grammar.Dialect.name

/-- Reads a document in the first grammar that accepts it. -/
def read (doc : Document) (grammars : List Text) : Traced (Option Program) := do
  match ← tryGrammars doc grammars with
  | some p => return some p
  | none =>
    Traced.tell (.rejected grammars)
    return none

/-- Reads a text in the first of the default grammars that accepts it. -/
def ofText (t : Text) : Traced (Option Program) := read (.text t) defaultGrammars

end Program
end KeyTrace
