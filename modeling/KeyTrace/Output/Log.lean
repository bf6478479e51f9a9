/-
The messages that an analysis leaves in the log, and those of its failures.
-/
import KeyTrace.Analysis.Traced
import KeyTrace.Text.Quoted
import KeyTrace.Text.Utf8

namespace KeyTrace

/-- The first stretch of surrogates in a text, by its positions. -/
def surrogateStretch (t : Text) : Nat × Nat :=
  let start := (t.takeWhile fun c => !isSurrogate c).length
  (start, start + ((t.drop start).takeWhile isSurrogate).length - 1)

/-- The complaint about a text without an encoded form. -/
def unencodableMessage (t : Text) : Text :=
  let (first, last) := surrogateStretch t
  text "'utf-8' codec can't encode character" ++
    (if first = last then text " '\\u" ++ Quoted.hexDigits 4 (t.getD first 0) ++ text "' in position "
      ++ decimal first
    else text "s in position " ++ decimal first ++ [45] ++ decimal last)
    ++ text ": surrogates not allowed"

/-- The first ill-formed piece of a byte string: where it starts, and its width. -/
def brokenPiece (position : Nat) : List Utf8.Piece → Nat × Nat
  | [] => (position, 0)
  | p :: ps => if p.point.isNone then (position, p.width) else brokenPiece (position + p.width) ps

/-- The complaint about bytes that are no text. -/
def undecodableMessage (bytes : List UInt8) : Text :=
  let (start, width) := brokenPiece 0 (Utf8.pieces bytes)
  let first := bytes.getD start 0
  let reason :=
    if (Utf8.lead first).isNone then "invalid start byte"
    else if start + width = bytes.length then "unexpected end of data"
    else "invalid continuation byte"
  text "'utf-8' codec can't decode byte" ++
    (if width ≤ 1 then
      text " 0x" ++ Quoted.hexDigits 2 first.toNat ++ text " in position " ++ decimal start
    else text "s in position " ++ decimal start ++ [45] ++ decimal (start + width - 1))
    ++ text ": " ++ text reason

/-- What there is to say about a failure. -/
def Failure.message : Failure → Text
  | .invalidEscape e => e.message
  | .unsupportedLanguage n => text "Unsupported language: " ++ n
  | .nameTooLong p => text "[Errno 36] File name too long: " ++ Quoted.encode p
  | .nullInPath => text "embedded null byte"
  | .unencodable t => unencodableMessage t
  | .undecodable bytes => undecodableMessage bytes

/-- A message and the part of the program that it comes from. Every one is for debugging. -/
structure Message where
  component : Text
  body : Text
deriving DecidableEq, Repr

namespace Message

/-- The logger of a component. -/
def analyzer (component : String) (body : Text) : Message :=
  ⟨text "intlscan.analyzer." ++ text component, body⟩

def ofLookup : LookupEvent → Message
  | .unresolved wanted file =>
    analyzer "module_resolver"
      (text "Unresolved import " ++ Quoted.encode wanted ++ text " from " ++ file)
  | .unreadable path => analyzer "module_resolver" (text "Could not read module " ++ path)

/-- What an event says. A request as such says nothing. -/
def ofEvent : Event → List Message
  | .unencodable => [analyzer "parser" (text "Source holds characters with no UTF-8 encoding")]
  | .rejected grammars =>
    [analyzer "parser"
      (text "Source rejected by every grammar (" ++ Text.join (text ", ") grammars ++ text ")")]
  | .requested _ search => search.map ofLookup
  | .unparsable module name =>
    [analyzer "folding" (text "Could not parse module " ++ Quoted.encode module
      ++ text " imported for " ++ Quoted.encode name)]
  | .notExported module name =>
    [analyzer "folding" (text "Module " ++ Quoted.encode module
      ++ text " has no exported variable " ++ Quoted.encode name)]

/-- A line of the log. -/
def line (m : Message) : Text := text "DEBUG:" ++ m.component ++ [58] ++ m.body

end Message

/-- How the log of the program is set up. -/
structure LogSetup where
  /-- Messages for debugging are shown, and not only warnings. -/
  verbose : Bool
  /-- How many handlers show messages. -/
  handlers : Nat
  /-- Messages also go to the handlers of the surrounding program. -/
  propagates : Bool
deriving DecidableEq, Repr

namespace LogSetup

/-- Nothing has been set up. -/
def initial : LogSetup := ⟨false, 0, true⟩

/-- Sets the log up, with a handler unless there is one. -/
def configure (s : LogSetup) (verbose : Bool) : LogSetup := ⟨verbose, max s.handlers 1, false⟩

/-- The name of the lowest level that is shown. -/
def level (s : LogSetup) : Text := text (if s.verbose then "DEBUG" else "WARNING")

end LogSetup

/-- The lines that a log comes to. -/
def logLines (log : List Event) : List Text := (log.flatMap Message.ofEvent).map Message.line

/-- The import strings asked for, in order, repeats included. -/
def requestedModules (log : List Event) : List Text :=
  log.filterMap fun
    | .requested m _ => some m
    | _ => none

end KeyTrace
