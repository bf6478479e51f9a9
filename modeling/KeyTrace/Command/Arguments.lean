/-
The command line: options, which may stand anywhere after the name of the
command, and paths.
-/
import KeyTrace.Path

namespace KeyTrace.Command

/-- What an option sets. -/
inductive Flag where
  | verbose | delimiter | root | json
deriving DecidableEq, Repr

/-- An option: its names, and whether it takes a value. -/
structure OptionRule where
  flag : Flag
  long : Text
  short : Option CodePoint
  takesValue : Bool

def OptionRule.verbose : OptionRule := ⟨.verbose, text "--verbose", some (cp 'v'), false⟩

def OptionRule.delimiter : OptionRule := ⟨.delimiter, text "--delimiter", some (cp 'd'), true⟩

def OptionRule.root : OptionRule := ⟨.root, text "--root", some (cp 'r'), true⟩

def OptionRule.json : OptionRule := ⟨.json, text "--json", none, false⟩

/-- Options with their values, the last given first; options without a value have an empty one. -/
abbrev Given := List (Flag × Text)

/-- What a single argument is. -/
inductive Argument where
  | positional
  /-- Two dashes, after which there are no options. -/
  | stop
  | options (given : Given)
  /-- Options of which the last still wants a value. -/
  | wanting (given : Given) (flag : Flag)
  | unknown
deriving Repr

def dash : CodePoint := cp '-'

/-- Reads letters after one dash; one that takes a value takes the rest of the letters. -/
def readLetters (rules : List OptionRule) (given : Given) : Text → Argument
  | [] => .options given
  | c :: t =>
    match rules.find? fun r => r.short == some c with
    | none => .unknown
    | some r =>
      if r.takesValue then
        if t.isEmpty then .wanting given r.flag else .options ((r.flag, t) :: given)
      else readLetters rules ((r.flag, []) :: given) t

/-- Reads an argument that has to be one option by its long name, if there is such an option. -/
def readLong? (rules : List OptionRule) (a : Text) : Option Argument :=
  let (name, value) := Text.cut (cp '=') a
  (rules.find? fun r => r.long == name).map fun r =>
    match r.takesValue, value with
    | true, some v => .options [(r.flag, v)]
    | true, none => .wanting [] r.flag
    | false, none => .options [(r.flag, [])]
    | false, some _ => .unknown

/-- Reads an argument. -/
def readArgument (rules : List OptionRule) (a : Text) : Argument :=
  match a with
  | 45 :: c :: t =>
    if c = dash ∧ t = [] then .stop
    else match readLong? rules a with
      | some argument => argument
      | none => if c = dash then .unknown else readLetters rules [] (c :: t)
  | _ => .positional

/-- Options and other arguments. -/
structure Arguments where
  given : Given
  others : List Text

/-- Reads arguments. Where options may not follow other arguments, the first of those ends them. -/
def readAll (rules : List OptionRule) (anywhere : Bool) (given : Given) (others : List Text) :
    List Text → Option Arguments
  | [] => some ⟨given, others.reverse⟩
  | a :: rest =>
    match readArgument rules a, rest with
    | .positional, rest =>
      if anywhere then readAll rules anywhere given (a :: others) rest
      else some ⟨given, others.reverse ++ a :: rest⟩
    | .stop, rest => some ⟨given, others.reverse ++ rest⟩
    | .options more, rest => readAll rules anywhere (more ++ given) others rest
    | .wanting more flag, v :: rest => readAll rules anywhere ((flag, v) :: more ++ given) others rest
    | .wanting _ _, [] => none
    | .unknown, _ => none

namespace Arguments

/-- The value of an option, the last one given. -/
def value? (a : Arguments) (flag : Flag) : Option Text := a.given.lookup flag

def has (a : Arguments) (flag : Flag) : Bool := (a.value? flag).isSome

end Arguments

/-- What a scan lists. -/
inductive Report where
  /-- The keys that are looked up, with a delimiter of their own if one is given. -/
  | keys (delimiter : Option Text)
  /-- The accessors and their namespaces. -/
  | namespaces
  /-- The ranges that belong to namespaces. -/
  | scopes
deriving Repr

/-- A scan of some paths. -/
structure Scan where
  report : Report
  paths : List Path
  root : Option Path
  asJson : Bool
deriving Repr

/-- What a command line asks for. -/
inductive Request where
  | scan (s : Scan)
  | version
deriving Repr

/-- The arguments of a scan; there has to be a path. -/
def readScan (report : Arguments → Report) (rules : List OptionRule) (args : List Text) :
    Option Request := do
  let a ← readAll ([.root, .json] ++ rules) true [] [] args
  if a.others.isEmpty then none
  else some (.scan {
    report := report a
    paths := a.others.map Path.ofText
    root := (a.value? .root).map Path.ofText
    asJson := a.has .json })

/-- The arguments of a command. -/
def readCommand (name : Text) (args : List Text) : Option Request :=
  if name = text "keys" then
    readScan (fun a => .keys (a.value? .delimiter)) [.delimiter] args
  else if name = text "namespaces" then readScan (fun _ => .namespaces) [] args
  else if name = text "scopes" then readScan (fun _ => .scopes) [] args
  else if name = text "version" then
    match readAll [] true [] [] args with
    | some a => if a.others.isEmpty then some .version else none
    | none => none
  else none

/-- What a command line asks for, if it is well-formed. -/
def readRequest (args : List Text) : Option Request := do
  match (← readAll [.verbose] false [] [] args).others with
  | name :: rest => readCommand name rest
  | [] => none

end KeyTrace.Command
