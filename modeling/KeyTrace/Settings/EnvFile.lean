/-
Files of settings, one `NAME=value` to a line.

A name may follow the word `export` and may stand in single quotes. A value in
quotes may go over several lines and has escapes; one without quotes ends at the
line, or at white space before `#`. A line that does not fit is passed over.
`${NAME}` and `${NAME:-other}` in a value stand for values set before.
-/
import KeyTrace.Text.Blank
import KeyTrace.Text.Named

namespace KeyTrace.EnvFile

/-- White space within a line. -/
def isInline (c : CodePoint) : Bool := isBlank c && c != 10 && c != 13

def isLineEnd (c : CodePoint) : Bool := c == 10 || c == 13

def hash : CodePoint := cp '#'

def equals : CodePoint := cp '='

def quote : CodePoint := 39

def doubleQuote : CodePoint := 34

/-- What is left of a text after the word `export` and white space, or the text itself. -/
def afterExport (t : Text) : Text :=
  match Text.after? (text "export") t with
  | some (c :: r) => if isInline c then r.dropWhile isInline else t
  | _ => t

/-- A name, which a comment has not, and what is left after it. -/
def readName? (t : Text) : Option (Option Text × Text) :=
  match t with
  | [] => none
  | c :: r =>
    if c = hash then some (none, t)
    else if c = quote then
      match r.takeWhile (· != quote), r.dropWhile (· != quote) with
      | n :: name, _ :: rest => some (some (n :: name), rest)
      | _, _ => none
    else
      let isName (d : CodePoint) : Bool := d != equals && d != hash && !isBlank d
      match t.takeWhile isName with
      | [] => none
      | name => some (some name, t.dropWhile isName)

/-- Where a value in quotes ends: at the first quote without a backslash before it, or else at the
last quote. -/
def closingQuote? (q : CodePoint) (last : Option Nat) (position : Nat) : Text → Option Nat
  | [] => last
  | [c] => if c = q then some position else last
  | c :: d :: r =>
    if c = 92 ∧ d = q then closingQuote? q (some (position + 1)) (position + 2) r
    else if c = q then some position
    else closingQuote? q last (position + 1) (d :: r)

/-- What letters mean after a backslash in double quotes. -/
def escapes : List (CodePoint × CodePoint) :=
  [(92, 92), (39, 39), (34, 34), (97, 7), (98, 8), (102, 12), (110, 10), (114, 13), (116, 9),
   (118, 11)]

/-- What letters mean after a backslash in single quotes. -/
def singleEscapes : List (CodePoint × CodePoint) := [(92, 92), (39, 39)]

/-- Reads escapes; a backslash before anything else stays. -/
def unescape (meanings : List (CodePoint × CodePoint)) : Text → Text
  | [] => []
  | [c] => [c]
  | c :: d :: r =>
    if c = 92 then
      match meanings.lookup d with
      | some m => m :: unescape meanings r
      | none => c :: unescape meanings (d :: r)
    else c :: unescape meanings (d :: r)

/-- A value in quotes, the opening quote being read, and what is left after it. -/
def readQuoted? (q : CodePoint) (meanings : List (CodePoint × CodePoint)) (t : Text) :
    Option (Text × Text) :=
  (closingQuote? q none 0 t).map fun n => (unescape meanings (t.take n), t.drop (n + 1))

/-- A value without the comment after it. `held` is white space that may come before one. -/
def uncommented (held : Text) : Text → Text
  | [] => []
  | c :: t =>
    if isBlank c then uncommented (c :: held) t
    else if c = hash && !held.isEmpty then []
    else held.reverse ++ c :: uncommented [] t

/-- A value, and what is left after it. -/
def readValue? (t : Text) : Option (Text × Text) :=
  match t with
  | [] => some ([], [])
  | c :: r =>
    if c = quote then readQuoted? quote singleEscapes r
    else if c = doubleQuote then readQuoted? doubleQuote escapes r
    else
      some (uncommented [] (t.takeWhile fun d => !isLineEnd d), t.dropWhile fun d => !isLineEnd d)

/-- What is left after a comment, if there is one. -/
def afterComment (t : Text) : Text :=
  match t.dropWhile isInline with
  | c :: r => if c = hash then r.dropWhile (fun d => !isLineEnd d) else t
  | [] => t

/-- What is left after the end of a line. -/
def afterLineEnd? (t : Text) : Option Text :=
  match t.dropWhile isInline with
  | [] => some []
  | 13 :: 10 :: r => some r
  | c :: r => if isLineEnd c then some r else none

/-- What is left after the rest of a line. -/
def afterLine (t : Text) : Text :=
  (t.dropWhile fun c => !isLineEnd c).drop 1

/-- The setting of one line; the value is missing without an equals sign. -/
abbrev Setting := Option (Text × Option Text)

/-- What follows a name: a value after an equals sign, a comment and the end of the line. -/
def readRest? (name : Option Text) (t : Text) : Except Text (Setting × Text) :=
  let t := t.dropWhile isInline
  let close (value : Option Text) (t : Text) : Except Text (Setting × Text) :=
    let t := afterComment t
    match afterLineEnd? t with
    | some rest => .ok (name.map fun n => (n, value), rest)
    | none => .error t
  match t with
  | [] => close none []
  | c :: r =>
    if c = equals then
      let r := r.dropWhile isInline
      match readValue? r with
      | some (value, rest) => close (some value) rest
      | none => .error r
    else close none t

/-- The setting at the start of a text without white space before it, and what is left. -/
def readSetting (t : Text) : Setting × Text :=
  let t := afterExport t
  match readName? t with
  | none => (none, afterLine t)
  | some (name, rest) =>
    match readRest? name rest with
    | .ok found => found
    | .error stuck => (none, afterLine stuck)

/-- The settings of a text, in order. Each takes at least a character. -/
def settings : (fuel : Nat) → Text → List Setting
  | 0, _ => []
  | fuel + 1, t =>
    match t.dropWhile isBlank with
    | [] => []
    | c :: r =>
      let (s, rest) := readSetting (c :: r)
      s :: settings fuel rest

/-- The name and the other value in `${NAME:-other}` at the start of a text, and its length. -/
def reference? (t : Text) : Option (Text × Text × Nat) :=
  match t with
  | 36 :: 123 :: r =>
    let name := r.takeWhile fun c => c != 125 && c != 58
    match r.drop name.length with
    | 125 :: _ => some (name, [], name.length + 3)
    | 58 :: 45 :: r =>
      let other := r.takeWhile (· != 125)
      if other.length < r.length then some (name, other, name.length + other.length + 5) else none
    | _ => none
  | _ => none

/-- The value with its references replaced; `skip` characters belong to the last reference. -/
def expand (value : Text → Option (Option Text)) : (skip : Nat) → Text → Text
  | _, [] => []
  | k + 1, _ :: t => expand value k t
  | 0, c :: t =>
    match reference? (c :: t) with
    | some (name, other, length) =>
      (match value name with
        | some v => v.getD []
        | none => other) ++ expand value (length - 1) t
    | none => c :: expand value 0 t

/-- The values of the settings of a text over an environment, which wins. -/
def values (environment : Named Text) (t : Text) : Named (Option Text) :=
  ((settings (t.length + 1) t).filterMap id).foldl
    (fun set s =>
      let value (name : Text) : Option (Option Text) :=
        match Named.get? environment name with
        | some v => some (some v)
        | none => Named.get? set name
      Named.set s.1 (s.2.map (expand value 0)) set) []

/-- The environment with the settings of a text that it does not have itself. -/
def load (environment : Named Text) (t : Text) : Named Text :=
  (values environment t).foldl
    (fun e s =>
      match s.2, Named.get? environment s.1 with
      | some v, none => Named.set s.1 v e
      | _, _ => e) environment

end KeyTrace.EnvFile
