/-
What an editor shows for a document: the keys looked up in it and the ranges
that belong to a namespace.

Each of the three questions reads the document anew, with an importer of its own.
-/
import KeyTrace.Analysis.Usages
import KeyTrace.Editor.Language
import KeyTrace.Text.Blank

namespace KeyTrace.Editor

/-- A stretch of a document that belongs to a namespace. -/
structure ScopeRange where
  start : Nat
  stop : Nat
  ns : Text
deriving DecidableEq, Repr

/-- A document to be looked into. -/
structure Document where
  code : Text
  file : Text
  importer : Option Importer
  /-- What joins a namespace and a key. -/
  delimiter : Text

namespace Document

/-- The name of the file, by which placeholders call it. -/
def label (d : Document) : Text := (Path.ofText d.file).name

/-- The accessors of the document. -/
def accessors (d : Document) : Traced (List Accessor) :=
  Accessor.discover d.code d.label d.importer

/-- The usages of the document, its own accessors being the fallback. -/
def usages (d : Document) : Traced (List Usage) := Traced.remembering do
  let map := NamespaceMap.ofAccessors (← d.accessors) false
  Usage.discover d.code (map.map fun p => (p.1, some p.2)) d.importer d.delimiter d.label

def isQuote (c : CodePoint) : Bool := c == 34 || c == 39 || c == 96

/-- The name in `namespace: '…'` at the start of a text, and the length of it all: any quotes, no
quote within, and at least one character between them. -/
def namespaceProperty? (t : Text) : Option (Text × Nat) :=
  match Text.after? (text "namespace:") t with
  | none => none
  | some r =>
    match r.dropWhile isBlank with
    | [] => none
    | q :: r =>
      let name := r.takeWhile fun c => !isQuote c
      if isQuote q && !name.isEmpty && name.length < r.length then
        some (name, t.length - r.length + name.length + 1)
      else none

/-- The last `namespace: '…'` of those found from left to right, and where it starts; of the text,
`skip` characters belong to the one found last. -/
def lastNamespaceProperty? (found : Option (Nat × Text)) (position : Nat) :
    (skip : Nat) → Text → Option (Nat × Text)
  | _, [] => found
  | k + 1, _ :: t => lastNamespaceProperty? found (position + 1) k t
  | 0, c :: t =>
    match namespaceProperty? (c :: t) with
    | some (name, length) => lastNamespaceProperty? (some (position, name)) (position + 1)
        (length - 1) t
    | none => lastNamespaceProperty? found (position + 1) 0 t

/-- The range from the last `namespace: '…'` to the end of a text. -/
def restOfDocument (code : Text) : List ScopeRange :=
  match lastNamespaceProperty? none 0 0 code with
  | some (start, name) => [⟨start, code.length, name⟩]
  | none => []

/-- The ranges of the usages that have a namespace. -/
def rangesOf (usages : List Usage) : List ScopeRange :=
  usages.filterMap fun u =>
    match u.ns with
    | some (c :: cs) => some ⟨u.start, u.stop, c :: cs⟩
    | _ => none

/-- The ranges that belong to a namespace, placeholders being namespaces here. A document without
any has the rest of it from a `namespace` property on. -/
def ranges (d : Document) : Traced (List ScopeRange) := Traced.remembering do
  let map := NamespaceMap.ofAccessors (← d.accessors) true
  let found ←
    if map.isEmpty then pure []
    else do
      let usages ← Usage.discover d.code (map.map fun p => (p.1, some p.2)) d.importer
        d.delimiter d.label
      pure (rangesOf usages)
  return if found.isEmpty then restOfDocument d.code else found

end Document
end KeyTrace.Editor
