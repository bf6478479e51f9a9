/-
Computations that keep a log and may fail.

The log holds what the analysis has to say about modules that it cannot use,
each event as a value; how an event reads is for `Output.Log` to say. A failure
keeps the events before it.
-/
import KeyTrace.Literal.Cook

namespace KeyTrace

/-- What looking for a module has to say. -/
inductive LookupEvent where
  /-- No file answers to an import string of a file. -/
  | unresolved (wanted file : Text)
  /-- A file is there but cannot be read as text. -/
  | unreadable (path : Text)
deriving DecidableEq, Repr

/-- What an analysis has to say. -/
inductive Event where
  /-- The source has no encoded form. -/
  | unencodable
  /-- No grammar accepts the source. -/
  | rejected (grammars : List Text)
  /-- The text of a module is asked for; what the search for it says comes along. -/
  | requested (module : Text) (search : List LookupEvent)
  /-- The text of a module is no program. -/
  | unparsable (module name : Text)
  /-- A module exports no variable of that name. -/
  | notExported (module name : Text)
deriving DecidableEq, Repr

/-- Why a computation has no result. -/
inductive Failure where
  | invalidEscape (e : Literal.InvalidEscape)
  | unsupportedLanguage (name : Text)
  /-- A path is longer than the file system allows. -/
  | nameTooLong (path : Text)
  /-- A path holds a null character. -/
  | nullInPath
  /-- A text has no encoded form. -/
  | unencodable (t : Text)
  /-- Bytes are no text. -/
  | undecodable (bytes : List UInt8)
deriving DecidableEq, Repr

/-- A result or a failure, and the events on the way to it. -/
structure Traced (α : Type) where
  log : List Event
  outcome : Except Failure α

namespace Traced

variable {α β : Type}

protected def pure (a : α) : Traced α := ⟨[], .ok a⟩

protected def bind (x : Traced α) (f : α → Traced β) : Traced β :=
  match x.outcome with
  | .ok a => ⟨x.log ++ (f a).log, (f a).outcome⟩
  | .error e => ⟨x.log, .error e⟩

instance : Monad Traced where
  pure := Traced.pure
  bind := Traced.bind

/-- Says one thing. -/
def tell (e : Event) : Traced Unit := ⟨[e], .ok ()⟩

def fail (e : Failure) : Traced α := ⟨[], .error e⟩

/-- A computation without events. -/
def ofExcept (x : Except Failure α) : Traced α := ⟨[], x⟩

/-- Cooking as a part of an analysis. -/
def ofCooked (x : Except Literal.InvalidEscape α) : Traced α :=
  ofExcept (x.mapError .invalidEscape)

@[simp] theorem pure_outcome (a : α) : (pure a : Traced α).outcome = .ok a := rfl

@[simp] theorem pure_log (a : α) : (pure a : Traced α).log = [] := rfl

theorem bind_of_ok {x : Traced α} {a : α} (h : x.outcome = .ok a) (f : α → Traced β) :
    (x >>= f) = ⟨x.log ++ (f a).log, (f a).outcome⟩ := by
  simp [Bind.bind, Traced.bind, h]

theorem bind_of_error {x : Traced α} {e : Failure} (h : x.outcome = .error e)
    (f : α → Traced β) : (x >>= f) = ⟨x.log, .error e⟩ := by
  simp [Bind.bind, Traced.bind, h]

theorem bind_ok_iff {x : Traced α} {f : α → Traced β} {b : β} :
    (x >>= f).outcome = .ok b ↔ ∃ a, x.outcome = .ok a ∧ (f a).outcome = .ok b := by
  cases h : x.outcome with
  | ok a => simp [bind_of_ok h]
  | error e => simp [bind_of_error h]

/-- What a log comes to when whoever is asked for a module remembers the answer: the search is
done once for each import string. -/
def searchedOnce (asked : List Text) : List Event → List Event
  | [] => []
  | .requested m search :: es =>
    .requested m (if asked.contains m then [] else search) :: searchedOnce (m :: asked) es
  | e :: es => e :: searchedOnce asked es

/-- A computation whose importer remembers its answers. -/
def remembering (x : Traced α) : Traced α := { x with log := searchedOnce [] x.log }

@[simp] theorem remembering_outcome (x : Traced α) : x.remembering.outcome = x.outcome := rfl

end Traced

/-- The answer to a request for a module: its text, if there is one, and what the search for it
says. -/
structure Importer.Answer where
  search : List LookupEvent
  text : Except Failure (Option Text)

/-- Finds the text of the module that an import string names. -/
abbrev Importer := Text → Importer.Answer

namespace Importer

/-- Asks an importer for a module. The request is an event whatever the answer. -/
def request (importer : Importer) (module : Text) : Traced (Option Text) :=
  let answer := importer module
  ⟨[.requested module answer.search], answer.text⟩

/-- An importer that knows some modules by heart. -/
def ofList (modules : List (Text × Option Text)) : Importer := fun m =>
  ⟨[], .ok ((modules.lookup m).bind id)⟩

end Importer
end KeyTrace
