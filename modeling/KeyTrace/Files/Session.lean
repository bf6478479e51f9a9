/-
Importers at work while the files change.

An importer that remembers keeps the first answer to every import string; a
search that fails is no answer. One that does not remember looks anew each time.
-/
import KeyTrace.Files.Resolver

namespace KeyTrace

/-- An importer in use. -/
structure LiveImporter where
  file : Path
  remembers : Bool
  /-- The answers so far, if it remembers. -/
  answers : Named (Option Text)

/-- Files that change and importers that read them. -/
structure ImportSession where
  resolver : Resolver
  workspace : Workspace
  importers : Named LiveImporter

namespace ImportSession

/-- What can happen in a session. -/
inductive Step where
  | write (place : FilePlace) (bytes : List UInt8)
  | delete (place : FilePlace)
  | start (id : Text) (file : Path) (remembers : Bool)
  | call (id wanted : Text)

/-- Changes the files. -/
def onFiles (s : ImportSession) (f : FileTree → FileTree) : ImportSession :=
  { s with workspace := { s.workspace with tree := f s.workspace.tree } }

/-- What the files say now. -/
def current (s : ImportSession) (file : Path) (wanted : Text) : Importer.Answer :=
  s.resolver.readModule s.workspace file wanted

/-- The importer after an answer. -/
def LiveImporter.learn (i : LiveImporter) (wanted : Text) (answer : Importer.Answer) :
    LiveImporter :=
  match i.remembers, answer.text with
  | true, .ok t => { i with answers := Named.set wanted t i.answers }
  | _, _ => i

/-- Calls an importer. Nobody answers under an id that is not in use. -/
def call (s : ImportSession) (id wanted : Text) : ImportSession × Importer.Answer :=
  match Named.get? s.importers id with
  | none => (s, ⟨[], .ok none⟩)
  | some i =>
    match Named.get? i.answers wanted with
    | some t => (s, ⟨[], .ok t⟩)
    | none =>
      let answer := s.current i.file wanted
      ({ s with importers := Named.set id (LiveImporter.learn i wanted answer) s.importers }, answer)

/-- One step of a session, and the answer of the importer that it calls, if any. -/
def step (s : ImportSession) : Step → ImportSession × Option Importer.Answer
  | .write place bytes => (s.onFiles fun t => t.writeFile place bytes, none)
  | .delete place => (s.onFiles fun t => t.erase place, none)
  | .start id file remembers =>
    ({ s with importers := Named.set id ⟨file, remembers, []⟩ s.importers }, none)
  | .call id wanted =>
    let (s, answer) := s.call id wanted
    (s, some answer)

end ImportSession
end KeyTrace
